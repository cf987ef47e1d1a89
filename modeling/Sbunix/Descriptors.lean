import Sbunix.Lib.BitFields
import Sbunix.Lib.Run
import Sbunix.SystemCalls

/-!
# Descriptor tables

`boot` fills two tables that the processor reads: the segment descriptors of `sys/gdt.c`, with the
descriptor of the task state segment, and the gates of `sys/isr.c`. A descriptor is a packed record
of the C code, and the processor takes it apart in its own way: the address of a handler is in three
parts of a gate, and the address of the task state segment in two parts of its descriptor.

`interrupt` is what the processor does with the tables when it takes an interrupt.
`gates_run` is for every sequence of calls of `idt_set_gate`, and `descriptor_tables` says which
interrupts reach which handler after `boot`, and on which stack.
-/

namespace Sbunix

open Lib

/-! ## Gates -/

structure IdtEntry where
  offset1 : UInt16
  selector : UInt16
  ist : UInt8
  typeAttr : UInt8
  offset2 : UInt16
  offset3 : UInt32
  zero : UInt32

/-- The packed record. -/
def IdtEntry.bits (e : IdtEntry) : Nat :=
  pack [(16, e.offset1.toNat), (16, e.selector.toNat), (8, e.ist.toNat), (8, e.typeAttr.toNat),
    (16, e.offset2.toNat), (32, e.offset3.toNat), (32, e.zero.toNat)]

/-- The entry that `idt_set_gate` writes. -/
def gateEntry (base : UInt64) (sel : UInt16) (flags : UInt8) : IdtEntry where
  offset1 := (base &&& 0xFFFF).toUInt16
  selector := sel
  ist := 0
  typeAttr := flags
  offset2 := ((base >>> 16) &&& 0xFFFF).toUInt16
  offset3 := ((base >>> 32) &&& 0xFFFFFFFF).toUInt32
  zero := 0

def idtSetGate (idt : List IdtEntry) (num base : UInt64) (sel : UInt16) (flags : UInt8) :
    Except Fault (List IdtEntry) :=
  if num.toNat < idt.length then .ok (idt.set num.toNat (gateEntry base sel flags))
  else .error .outOfBounds

/-- The addresses of the entry code. -/
structure Handlers where
  isrTimer : UInt64
  isrKeyboard : UInt64
  isrSyscall : UInt64
  pageFaultHandler : UInt64

def initIsr (h : Handlers) (idt : List IdtEntry) : Except Fault (List IdtEntry) := do
  let idt ← idtSetGate idt 32 h.isrTimer 0x08 0x8E
  let idt ← idtSetGate idt 33 h.isrKeyboard 0x08 0x8E
  let idt ← idtSetGate idt 128 h.isrSyscall 0x08 0xEE
  idtSetGate idt 14 h.pageFaultHandler 0x08 0x8E

/-- The table after `memset`. -/
def emptyIdt : List IdtEntry := List.replicate 256 ⟨0, 0, 0, 0, 0, 0, 0⟩

def reloadIdt (h : Handlers) : Except Fault (List IdtEntry) := initIsr h emptyIdt

/-! ## Segments -/

def gdtCs : UInt64 := 0x00180000000000
def gdtDs : UInt64 := 0x00100000000000
def dpl0 : UInt64 := 0x00000000000000
def dpl3 : UInt64 := 0x00600000000000
def presentBit : UInt64 := 0x00800000000000
def longBit : UInt64 := 0x20000000000000
def writableBit : UInt64 := 0x00020000000000

/-- The table at the start, of `MAX_GDT` entries. -/
def staticGdt : List UInt64 :=
  [0, gdtCs ||| presentBit ||| dpl0 ||| longBit, gdtDs ||| presentBit ||| writableBit ||| dpl0, 0,
    gdtDs ||| presentBit ||| writableBit ||| dpl3, gdtCs ||| presentBit ||| dpl3 ||| longBit, 0,
    0] ++
    List.replicate 24 0

/-- A system descriptor, in two entries of the table. A value is cut to its field's width. -/
structure SysSegmentDescriptor where
  loLimit : Nat
  loBase : Nat
  type : Nat
  dpl : Nat
  p : Nat
  hiLimit : Nat
  xx1 : Nat
  gran : Nat
  hiBase : Nat
  xx2 : Nat
  zero : Nat
  xx3 : Nat

namespace SysSegmentDescriptor

def bits (sd : SysSegmentDescriptor) : Nat :=
  pack [(16, sd.loLimit), (24, sd.loBase), (5, sd.type), (2, sd.dpl), (1, sd.p), (4, sd.hiLimit),
    (3, sd.xx1), (1, sd.gran), (40, sd.hiBase), (8, sd.xx2), (5, sd.zero), (19, sd.xx3)]

def ofBits (x : Nat) : SysSegmentDescriptor where
  loLimit := bitField 0 16 x
  loBase := bitField 16 24 x
  type := bitField 40 5 x
  dpl := bitField 45 2 x
  p := bitField 47 1 x
  hiLimit := bitField 48 4 x
  xx1 := bitField 52 3 x
  gran := bitField 55 1 x
  hiBase := bitField 56 40 x
  xx2 := bitField 96 8 x
  zero := bitField 104 5 x
  xx3 := bitField 109 19 x

end SysSegmentDescriptor

/-- Two entries, from the lower address on. -/
def wideEntry (gdt : List UInt64) (i : Nat) : Option Nat := do
  let lo ← gdt[i]?
  let hi ← gdt[i + 1]?
  return lo.toNat + 2 ^ 64 * hi.toNat

/-- The stores to the table. The size of the task state segment is 104. -/
def initGdt (tss : UInt64) (gdt : List UInt64) : Option (List UInt64) := do
  let sd := SysSegmentDescriptor.ofBits (← wideEntry gdt 6)
  let sd := { sd with loLimit := 104 - 1, loBase := tss.toNat, type := 9, dpl := 0, p := 1,
                      hiLimit := 0, gran := 0, hiBase := (tss >>> 24).toNat }
  return (gdt.set 6 (UInt64.ofNat (bitField 0 64 sd.bits))).set 7
    (UInt64.ofNat (bitField 64 64 sd.bits))

/-- `rsp0` is behind the first four bytes. -/
def setTssRsp (tss rsp : UInt64) (m : Mem) : Mem := write64 m (tss.toNat + 4) rsp

/-! ## The processor -/

/-- The parts of a gate. The bit above the type is clear in a gate. -/
structure Gate where
  offset : Nat
  selector : Nat
  ist : Nat
  type : Nat
  dpl : Nat
  present : Nat
deriving DecidableEq

def Gate.ofBits (x : Nat) : Gate where
  offset := pack [(16, bitField 0 16 x), (16, bitField 48 16 x), (32, bitField 64 32 x)]
  selector := bitField 16 16 x
  ist := bitField 32 3 x
  type := bitField 40 5 x
  dpl := bitField 45 2 x
  present := bitField 47 1 x

/-- The parts of a code or data segment descriptor. The bit `code` has the bit of non-system
descriptors above it, and the bit `writable` is `readable` in a code segment. -/
structure Segment where
  writable : Nat
  conforming : Nat
  code : Nat
  dpl : Nat
  present : Nat
  long : Nat
  wide : Nat
deriving DecidableEq

def Segment.ofBits (x : Nat) : Segment where
  writable := bitField 41 1 x
  conforming := bitField 42 1 x
  code := bitField 43 2 x
  dpl := bitField 45 2 x
  present := bitField 47 1 x
  long := bitField 53 1 x
  wide := bitField 54 1 x

/-- A selector with its privilege level. There is no local table. -/
def readSegment (gdt : List UInt64) (selector : Nat) : Option Segment :=
  if selector / 4 = 0 ∨ bitField 2 1 selector = 1 then none
  else gdt[selector / 8]?.map fun d => Segment.ofBits d.toNat

/-- The base address that `ltr` loads. -/
def ltr (gdt : List UInt64) (selector : Nat) : Option Nat := do
  let x ← wideEntry gdt (selector / 8)
  if bitField 40 5 x = 9 ∧ bitField 47 1 x = 1 then
    return pack [(24, bitField 16 24 x), (8, bitField 56 8 x), (32, bitField 64 32 x)]
  else none

/-- The tables that the processor has been told of. -/
structure DescriptorTables where
  idt : List IdtEntry
  gdt : List UInt64
  tssBase : Nat

/-- `init_gdt` and `reload_idt`. -/
def bootDescriptors (h : Handlers) (tss : UInt64) : Option DescriptorTables := do
  let gdt ← initGdt tss staticGdt
  let tssBase ← ltr gdt 0x30
  let idt ← (reloadIdt h).toOption
  return ⟨idt, gdt, tssBase⟩

/-- What an interrupt comes from. Only a fault has an error code here. -/
inductive Trigger
  | software
  | irq
  | fault (code : UInt64)
deriving DecidableEq

/-- The state in which a handler starts. -/
structure Entered where
  rip : Nat
  cs : Nat
  interrupts : Bool
  cpu : Cpu

def pushCode : Trigger → Cpu → Cpu
  | .fault code, c => c.pushWord code
  | _, c => c

/-- The interrupt `v`, or another fault. The privilege level is in the low bits of `cs`, and the
stack comes from the task state segment when the level changes. -/
def interrupt (t : DescriptorTables) (trigger : Trigger) (v : Nat) (u : UserRegs) (m : Mem) :
    Option Entered := do
  let cpl := u.cs.toNat % 4
  let e ← t.idt[v]?
  let g := Gate.ofBits e.bits
  if g.type ≠ 14 ∧ g.type ≠ 15 then none
  else if trigger = .software ∧ g.dpl < cpl then none
  else if g.present = 0 then none
  else
    let s ← readSegment t.gdt g.selector
    if s.code ≠ 3 ∨ s.present = 0 ∨ s.long = 0 ∨ s.wide = 1 ∨ cpl < s.dpl then none
    else
      let level := if s.conforming = 1 then cpl else s.dpl
      let stack :=
        if g.ist ≠ 0 then read64 m (t.tssBase + 28 + 8 * g.ist)
        else if level < cpl then read64 m (t.tssBase + 4 + 8 * level)
        else u.reg .rsp
      return ⟨g.offset, g.selector / 4 * 4 + level, decide (g.type = 15),
        pushCode trigger (trap stack u m)⟩

/-- The privilege level that `iretq` returns to. -/
def iretLevel (t : DescriptorTables) (u : UserRegs) : Option Nat := do
  let rpl := u.cs.toNat % 4
  let s ← readSegment t.gdt u.cs.toNat
  let d ← readSegment t.gdt u.ss.toNat
  if s.code = 3 ∧ s.present = 1 ∧ s.long = 1 ∧ s.dpl = rpl ∧ d.code = 2 ∧ d.writable = 1 ∧
      d.present = 1 ∧ d.dpl = rpl ∧ u.ss.toNat % 4 = rpl then
    return rpl
  else none

/-! ## Round trips -/

section

variable {base : UInt64} {sel : UInt16} {flags : UInt8}

/-- The three parts of an address. -/
theorem gateEntry_offset (base : UInt64) (sel : UInt16) (flags : UInt8) :
    (gateEntry base sel flags).offset1.toNat = base.toNat % 2 ^ 16 ∧
      (gateEntry base sel flags).offset2.toNat = base.toNat / 2 ^ 16 % 2 ^ 16 ∧
      (gateEntry base sel flags).offset3.toNat = base.toNat / 2 ^ 16 / 2 ^ 16 % 2 ^ 32 := by
  have hmask (x : Nat) : x % 65536 &&& 65535 = x % 65536 := by
    rw [Nat.and_two_pow_sub_one_eq_mod (x % 65536) 16, Nat.mod_mod]
  have hmask' (x : Nat) : x % 4294967296 &&& 4294967295 = x % 4294967296 := by
    rw [Nat.and_two_pow_sub_one_eq_mod (x % 4294967296) 32, Nat.mod_mod]
  refine ⟨?_, ?_, ?_⟩
  · simp [gateEntry, hmask]
  · simp [gateEntry, Nat.shiftRight_eq_div_pow, hmask]
  · simp [gateEntry, Nat.shiftRight_eq_div_pow, hmask', Nat.div_div_eq_div_mul]

/-- The fields of a gate, as the processor finds them. -/
theorem gate_bits (e : IdtEntry) :
    bitField 0 16 e.bits = e.offset1.toNat ∧ bitField 16 16 e.bits = e.selector.toNat ∧
      bitField 32 8 e.bits = e.ist.toNat ∧ bitField 40 8 e.bits = e.typeAttr.toNat ∧
      bitField 48 16 e.bits = e.offset2.toNat ∧ bitField 64 32 e.bits = e.offset3.toNat := by
  have hfield := fun fs gs w v h => (bitField_pack fs gs w v).trans (Nat.mod_eq_of_lt h)
  exact ⟨hfield [] _ _ _ e.offset1.toNat_lt, hfield [_] _ _ _ e.selector.toNat_lt,
    hfield [_, _] _ _ _ e.ist.toNat_lt, hfield [_, _, _] _ _ _ e.typeAttr.toNat_lt,
    hfield [_, _, _, _] _ _ _ e.offset2.toNat_lt, hfield [_, _, _, _, _] _ _ _ e.offset3.toNat_lt⟩

/-- The processor finds in a gate what the call put into it. -/
theorem gate_gateEntry (base : UInt64) (sel : UInt16) (flags : UInt8) :
    Gate.ofBits (gateEntry base sel flags).bits =
      ⟨base.toNat, sel.toNat, 0, bitField 0 5 flags.toNat, bitField 5 2 flags.toNat,
        bitField 7 1 flags.toNat⟩ := by
  obtain ⟨hoff₁, hsel, hist, hattr, hoff₂, hoff₃⟩ := gate_bits (gateEntry base sel flags)
  obtain ⟨hlow, hmiddle, hhigh⟩ := gateEntry_offset base sel flags
  have hbase : pack [(16, base.toNat % 2 ^ 16), (16, base.toNat / 2 ^ 16 % 2 ^ 16),
      (32, base.toNat / 2 ^ 16 / 2 ^ 16 % 2 ^ 32)] = base.toNat :=
    (pack_unpack [16, 16, 32] base.toNat).trans (Nat.mod_eq_of_lt base.toNat_lt)
  have hpart := fun start width (h : start + width ≤ 8) =>
    bitField_bitField 40 h (gateEntry base sel flags).bits
  rw [hattr] at hpart
  have hist₀ : bitField 32 3 (gateEntry base sel flags).bits = bitField 0 3 0 := by
    rw [← bitField_bitField 32 (show 0 + 3 ≤ 8 by decide), hist]
    rfl
  rw [Gate.ofBits, hoff₁, hsel, hoff₂, hoff₃, hlow, hmiddle, hhigh, hbase, hist₀,
    ← hpart 0 5 (by decide), ← hpart 5 2 (by decide), ← hpart 7 1 (by decide)]
  rfl

theorem sys_bits (sd : SysSegmentDescriptor) :
    bitField 16 24 sd.bits = sd.loBase % 2 ^ 24 ∧ bitField 40 5 sd.bits = sd.type % 2 ^ 5 ∧
      bitField 47 1 sd.bits = sd.p % 2 ^ 1 ∧ bitField 56 40 sd.bits = sd.hiBase % 2 ^ 40 ∧
      sd.bits < 2 ^ 128 := by
  unfold SysSegmentDescriptor.bits
  exact ⟨bitField_pack [_] _ _ _, bitField_pack [_, _] _ _ _, bitField_pack [_, _, _, _] _ _ _,
    bitField_pack [_, _, _, _, _, _, _, _] _ _ _, pack_lt _⟩

/-- A descriptor in two entries of the table. -/
theorem toNat_entries {x : Nat} (hx : x < 2 ^ 128) :
    (UInt64.ofNat (bitField 0 64 x)).toNat + 2 ^ 64 * (UInt64.ofNat (bitField 64 64 x)).toNat =
      x := by
  rw [UInt64.toNat_ofNat', UInt64.toNat_ofNat', bitField, bitField]
  omega

/-- The state segment that `ltr` loads is the one that `init_gdt` was given. -/
theorem initGdt_spec (tss : UInt64) : ∃ gdt, initGdt tss staticGdt = some gdt ∧
    ltr gdt 0x30 = some tss.toNat ∧ ∀ i < 6, gdt[i]? = staticGdt[i]? := by
  have hwide : wideEntry staticGdt 6 = some 0 := rfl
  have hget (lo hi : UInt64) : wideEntry ((staticGdt.set 6 lo).set 7 hi) 6 =
      some (lo.toNat + 2 ^ 64 * hi.toNat) := rfl
  have hset (lo hi : UInt64) : ∀ i < 6, ((staticGdt.set 6 lo).set 7 hi)[i]? = staticGdt[i]? := by
    intro i hi
    rw [List.getElem?_set_ne (by omega), List.getElem?_set_ne (by omega)]
  rw [initGdt, hwide]
  refine ⟨_, rfl, ?_, hset _ _⟩
  obtain ⟨hlo, htype, hp, hhi, hlt⟩ := sys_bits
    { SysSegmentDescriptor.ofBits 0 with
      loLimit := 104 - 1, loBase := tss.toNat, type := 9, dpl := 0, p := 1, hiLimit := 0,
      gran := 0, hiBase := (tss >>> 24).toNat }
  have hbase : pack [(24, tss.toNat % 2 ^ 24), (8, tss.toNat / 2 ^ 24 % 2 ^ 8),
      (32, tss.toNat / 2 ^ 24 / 2 ^ 8 % 2 ^ 32)] = tss.toNat :=
    (pack_unpack [24, 8, 32] tss.toNat).trans (Nat.mod_eq_of_lt tss.toNat_lt)
  rw [ltr, hget, toNat_entries hlt]
  generalize SysSegmentDescriptor.bits _ = x at hlo htype hp hhi ⊢
  change bitField 56 40 x = (tss >>> 24).toNat % 2 ^ 40 at hhi
  have hshift : (tss >>> 24).toNat = tss.toNat / 2 ^ 24 := by
    rw [UInt64.toNat_shiftRight, Nat.shiftRight_eq_div_pow]
    rfl
  have hmiddle : bitField 56 8 x = tss.toNat / 2 ^ 24 % 2 ^ 8 := by
    rw [← bitField_bitField 56 (show 0 + 8 ≤ 40 by decide), hhi, bitField, hshift]
    omega
  have hhigh : bitField 64 32 x = tss.toNat / 2 ^ 24 / 2 ^ 8 % 2 ^ 32 := by
    rw [← bitField_bitField 56 (show 8 + 32 ≤ 40 by decide), hhi, bitField, hshift]
    omega
  show (if bitField 40 5 x = 9 ∧ bitField 47 1 x = 1 then some _ else none) = some tss.toNat
  rw [if_pos ⟨htype, hp⟩, hlo, hmiddle, hhigh, hbase]

end

/-! ## Gates for all vectors -/

/-- A call of `idt_set_gate`. -/
structure GateCall where
  num : UInt64
  base : UInt64
  sel : UInt16
  flags : UInt8

def idtStep (idt : List IdtEntry) (call : GateCall) : Option (List IdtEntry) :=
  (idtSetGate idt call.num call.base call.sel call.flags).toOption

def GateCall.gate (call : GateCall) : Gate :=
  ⟨call.base.toNat, call.sel.toNat, 0, bitField 0 5 call.flags.toNat,
    bitField 5 2 call.flags.toNat, bitField 7 1 call.flags.toNat⟩

/-- What the table is for: a gate for every vector. -/
def setGate (g : Nat → Gate) (call : GateCall) : Nat → Gate :=
  Function.update g call.num.toNat call.gate

def noGate : Gate := ⟨0, 0, 0, 0, 0, 0⟩

/-- The processor finds the gates of `g` in the table. -/
structure HasGates (idt : List IdtEntry) (g : Nat → Gate) : Prop where
  length : idt.length = 256
  gate : ∀ v < 256, ∃ e, idt[v]? = some e ∧ Gate.ofBits e.bits = g v

theorem hasGates_empty : HasGates emptyIdt fun _ => noGate :=
  ⟨List.length_replicate, fun _ hv => ⟨_, List.getElem?_replicate_of_lt hv, rfl⟩⟩

theorem HasGates.set {idt : List IdtEntry} {g : Nat → Gate} (h : HasGates idt g)
    (call : GateCall) (hnum : call.num.toNat < 256) :
    ∃ idt', idtSetGate idt call.num call.base call.sel call.flags = .ok idt' ∧
      HasGates idt' (setGate g call) := by
  have hlen : call.num.toNat < idt.length := by rwa [h.length]
  refine ⟨_, if_pos hlen, ?_, fun v hv => ?_⟩
  · rw [List.length_set, h.length]
  · by_cases hv' : v = call.num.toNat
    · rw [hv', List.getElem?_set_self hlen, setGate, Function.update_self]
      exact ⟨_, rfl, gate_gateEntry _ _ _⟩
    · rw [List.getElem?_set_ne (Ne.symm hv'), setGate, Function.update_of_ne hv']
      exact h.gate v hv

/-- **Gates.** After any calls of `idt_set_gate` the processor finds in each gate what the last call
for its vector put there, and nothing in the other ones. -/
theorem gates_run (calls : List GateCall) (h : ∀ call ∈ calls, call.num.toNat < 256) :
    ∃ idt, Run idtStep (fun _ call => call.num.toNat < 256) emptyIdt calls idt ∧
      HasGates idt (calls.foldl setGate fun _ => noGate) := by
  have halong : ∀ idt, Along idtStep (fun _ call => call.num.toNat < 256) idt calls := by
    induction calls with
    | nil => exact fun _ => trivial
    | cons call calls ih =>
      rw [List.forall_mem_cons] at h
      exact fun idt => ⟨h.1, fun idt' _ => ih h.2 idt'⟩
  refine Along.simulation (fun {idt g call} hg hnum => ?_) (halong emptyIdt) hasGates_empty
  obtain ⟨idt', hset, hg'⟩ := hg.set call hnum
  exact ⟨idt', congrArg Except.toOption hset, hg'⟩

/-- Two gates for one vector. -/
theorem gates_run_twice :
    ∃ idt, Run idtStep (fun _ call => call.num.toNat < 256) emptyIdt
        [⟨32, 0xFFFFFFFF80201000, 8, 0x8E⟩, ⟨32, 0xFFFFFFFF80202000, 8, 0xEE⟩] idt ∧
      HasGates idt ([⟨32, 0xFFFFFFFF80201000, 8, 0x8E⟩,
        ⟨32, 0xFFFFFFFF80202000, 8, 0xEE⟩].foldl setGate fun _ => noGate) :=
  gates_run _ (by decide)

/-! ## Interrupts after `boot` -/

/-- The entry code of a vector. -/
def handler (h : Handlers) (v : Nat) : Option UInt64 :=
  if v = 14 then some h.pageFaultHandler
  else if v = 128 then some h.isrSyscall
  else if v = 33 then some h.isrKeyboard
  else if v = 32 then some h.isrTimer
  else none

theorem setGate_apply (g : Nat → Gate) (call : GateCall) (v : Nat) :
    setGate g call v = if v = call.num.toNat then call.gate else g v :=
  Function.update_apply g call.num.toNat call.gate v

/-- The two kinds of gates. -/
theorem gate_flags (num base : UInt64) :
    GateCall.gate ⟨num, base, 0x08, 0x8E⟩ = ⟨base.toNat, 8, 0, 14, 0, 1⟩ ∧
      GateCall.gate ⟨num, base, 0x08, 0xEE⟩ = ⟨base.toNat, 8, 0, 14, 3, 1⟩ := by
  have hkernel : bitField 0 5 142 = 14 ∧ bitField 5 2 142 = 0 ∧ bitField 7 1 142 = 1 := by decide
  have huser : bitField 0 5 238 = 14 ∧ bitField 5 2 238 = 3 ∧ bitField 7 1 238 = 1 := by decide
  simp [GateCall.gate, hkernel, huser]

theorem reloadIdt_spec (h : Handlers) : ∃ idt, reloadIdt h = .ok idt ∧ idt.length = 256 ∧
    ∀ v < 256, ∃ e, idt[v]? = some e ∧ Gate.ofBits e.bits =
      ((handler h v).map fun a =>
        ⟨a.toNat, 8, 0, 14, if v = 128 then 3 else 0, 1⟩).getD noGate := by
  obtain ⟨idt₁, h₁, hg₁⟩ := hasGates_empty.set ⟨32, h.isrTimer, 0x08, 0x8E⟩ (by simp)
  obtain ⟨idt₂, h₂, hg₂⟩ := hg₁.set ⟨33, h.isrKeyboard, 0x08, 0x8E⟩ (by simp)
  obtain ⟨idt₃, h₃, hg₃⟩ := hg₂.set ⟨128, h.isrSyscall, 0x08, 0xEE⟩ (by simp)
  obtain ⟨idt, h₄, hg⟩ := hg₃.set ⟨14, h.pageFaultHandler, 0x08, 0x8E⟩ (by simp)
  refine ⟨idt, ?_, hg.length, fun v hv => ?_⟩
  · dsimp only at h₁ h₂ h₃ h₄
    rw [reloadIdt, initIsr, h₁, ok_bind, h₂, ok_bind, h₃, ok_bind, h₄]
  · obtain ⟨e, he, hgate⟩ := hg.gate v hv
    refine ⟨e, he, hgate.trans ?_⟩
    have hnum : (14 : UInt64).toNat = 14 ∧ (128 : UInt64).toNat = 128 ∧
        (33 : UInt64).toNat = 33 ∧ (32 : UInt64).toNat = 32 := by decide
    simp only [setGate_apply, gate_flags, hnum, handler]
    split_ifs
    all_goals first | rfl | omega

/-- The segments that the gates and the user frames name. -/
theorem readSegment_spec {gdt : List UInt64} (h : ∀ i < 6, gdt[i]? = staticGdt[i]?) :
    readSegment gdt 8 = some ⟨0, 0, 3, 0, 1, 1, 0⟩ ∧
      readSegment gdt 0x10 = some ⟨1, 0, 2, 0, 1, 0, 0⟩ ∧
      readSegment gdt 0x2B = some ⟨0, 0, 3, 3, 1, 1, 0⟩ ∧
      readSegment gdt 0x23 = some ⟨1, 0, 2, 3, 1, 0, 0⟩ := by
  refine ⟨?_, ?_, ?_, ?_⟩
  · rw [readSegment, if_neg (by decide), h 1 (by decide)]
    decide
  · rw [readSegment, if_neg (by decide), h 2 (by decide)]
    decide
  · rw [readSegment, if_neg (by decide), h 5 (by decide)]
    decide
  · rw [readSegment, if_neg (by decide), h 4 (by decide)]
    decide

/-- What else may write to the memory. -/
inductive TssOp
  | setRsp (rsp : UInt64)
  | store (a : Nat) (v : UInt64)

namespace TssOp

def exec (tss : UInt64) (m : Mem) : TssOp → Mem
  | setRsp rsp => setTssRsp tss rsp m
  | store a v => write64 m a v

/-- No other store meets the word. -/
def Apart (tss : UInt64) : TssOp → Prop
  | setRsp _ => True
  | store a _ => a + 8 ≤ tss.toNat + 4 ∨ tss.toNat + 12 ≤ a

/-- The last stack pointer. -/
def last (r : UInt64) : TssOp → UInt64
  | setRsp rsp => rsp
  | store _ _ => r

end TssOp

theorem rsp0_run {tss : UInt64} {ops : List TssOp} (h : ∀ op ∈ ops, op.Apart tss) {m : Mem}
    {r : UInt64} (hm : read64 m (tss.toNat + 4) = r) :
    read64 (ops.foldl (TssOp.exec tss) m) (tss.toNat + 4) = ops.foldl TssOp.last r := by
  induction ops generalizing m r with
  | nil => exact hm
  | cons op ops ih =>
    rw [List.forall_mem_cons] at h
    refine ih h.2 ?_
    cases op with
    | setRsp rsp => exact read64_write64 _ _ _
    | store a v =>
      have hapart : a + 8 ≤ tss.toNat + 4 ∨ tss.toNat + 12 ≤ a := h.1
      exact (read64_write64_of_disjoint m v (by omega)).trans hm

section

variable {t : DescriptorTables} {v : Nat} {e : IdtEntry}

/-- A gate that leads to the kernel. -/
theorem interrupt_gate {a dpl : Nat} (he : t.idt[v]? = some e)
    (hgate : Gate.ofBits e.bits = ⟨a, 8, 0, 14, dpl, 1⟩)
    (hcs : readSegment t.gdt 8 = some ⟨0, 0, 3, 0, 1, 1, 0⟩) (trigger : Trigger) (u : UserRegs)
    (m : Mem) : interrupt t trigger v u m =
      if trigger = .software ∧ dpl < u.cs.toNat % 4 then none
      else some ⟨a, 8, false, pushCode trigger
        (trap (if 0 < u.cs.toNat % 4 then read64 m (t.tssBase + 4) else u.reg .rsp) u m)⟩ := by
  rw [interrupt, he, Option.bind_eq_bind, Option.bind_some, hgate]
  by_cases hdpl : trigger = .software ∧ dpl < u.cs.toNat % 4
  · rw [if_pos hdpl]
    simp [hdpl]
  · rw [if_neg hdpl]
    simp [hdpl, hcs]

theorem interrupt_noGate (h : ∀ e, t.idt[v]? = some e → Gate.ofBits e.bits = noGate)
    (trigger : Trigger) (u : UserRegs) (m : Mem) : interrupt t trigger v u m = none := by
  rw [interrupt]
  cases he : t.idt[v]? with
  | none => rfl
  | some e =>
    rw [Option.bind_eq_bind, Option.bind_some, h e he]
    rfl

end

/-- **Interrupts.** After `boot`, and whatever the kernel stores beside the word `rsp0`, an
interrupt from the kernel or from a user program reaches the entry code of its vector, with
interrupts off, and on the stack that was set last when it comes from a user program. All other
vectors have no handler, and of the four a user program can call only the system call itself.
`iretq` goes back to the segments that both run in. -/
theorem descriptor_tables (h : Handlers) (tss : UInt64) :
    ∃ t, bootDescriptors h tss = some t ∧
      (∀ u : UserRegs, u.cs = 8 ∧ u.ss = 0x10 → iretLevel t u = some 0) ∧
      (∀ u : UserRegs, u.cs = 0x2B ∧ u.ss = 0x23 → iretLevel t u = some 3) ∧
      ∀ (ops : List TssOp) (m : Mem), (∀ op ∈ ops, op.Apart tss) →
        ∀ trigger v (u : UserRegs), u.cs = 8 ∨ u.cs = 0x2B →
          interrupt t trigger v u (ops.foldl (TssOp.exec tss) m) =
            if trigger = .software ∧ v ≠ 128 ∧ u.cs = 0x2B then none
            else (handler h v).map fun a => ⟨a.toNat, 8, false, pushCode trigger
              (trap (if u.cs = 0x2B then ops.foldl TssOp.last (read64 m (tss.toNat + 4))
                else u.reg .rsp) u (ops.foldl (TssOp.exec tss) m))⟩ := by
  obtain ⟨gdt, hgdt, hltr, hsame⟩ := initGdt_spec tss
  obtain ⟨idt, hidt, hlen, hgates⟩ := reloadIdt_spec h
  obtain ⟨hcs, hds, hucs, huds⟩ := readSegment_spec hsame
  refine ⟨⟨idt, gdt, tss.toNat⟩, ?_, fun u hu => ?_, fun u hu => ?_,
    fun ops m hops trigger v u hu => ?_⟩
  · rw [bootDescriptors, hgdt, hidt]
    simp [hltr, Except.toOption]
  · simp [iretLevel, hu, hcs, hds]
  · simp [iretLevel, hu, hucs, huds]
  · have hrsp := rsp0_run hops (m := m) rfl
    generalize ops.foldl (TssOp.exec tss) m = m' at hrsp ⊢
    cases hv : handler h v with
    | none =>
      rw [interrupt_noGate, Option.map_none, ite_self]
      intro e he
      have hlt : v < 256 := by
        have := (List.getElem?_eq_some_iff.1 he).1
        rwa [hlen] at this
      obtain ⟨e', he', hgate⟩ := hgates v hlt
      rw [hv] at hgate
      exact Option.some.inj (he'.symm.trans he) ▸ hgate
    | some a =>
      have hlt : v < 256 := by
        unfold handler at hv
        split_ifs at hv
        all_goals omega
      obtain ⟨e, he, hgate⟩ := hgates v hlt
      rw [hv] at hgate
      rw [interrupt_gate he hgate hcs, hrsp, Option.map_some]
      rcases hu with hu | hu
      · simp [hu]
      · by_cases h128 : v = 128
        · simp [hu, h128]
        · simp [hu, h128]

end Sbunix

import MiniKernel.Ports.ProcessTable
import MiniKernel.Verified.Protection
import MiniKernel.Verified.Transfers

/-!
# Descriptor tables

`gdt_set_gate` and `init_gdt` of `tss.c`, `add` of `idt.c`, and the gates that
`kernel` installs.  The tables are arrays of packed structs in memory; what the
processor reads there is compared with the arguments of the calls.
-/

namespace MiniKernel.Ports.DescriptorTables

open MiniKernel.Verified.ByteMemory
open MiniKernel.Verified.Transfers
open MiniKernel.Verified.Protection
open MiniKernel.Ports.ProcessTable

/-- The addresses of `gdt`, `idt` and `tss`. -/
structure Layout where
  gdt : Nat
  idt : Nat
  tss : Nat

/-- `sizeof(gdt)`, `sizeof(idt)` and `sizeof(tss)`. -/
def sizeofGdt : Nat := 6 * 8
def sizeofIdt : Nat := 256 * 8
def sizeofTss : Nat := 104

/-- Three areas that do not overlap. -/
structure Layout.Apart (l : Layout) : Prop where
  gdtIdt : l.gdt + sizeofGdt ≤ l.idt ∨ l.idt + sizeofIdt ≤ l.gdt
  gdtTss : l.gdt + sizeofGdt ≤ l.tss ∨ l.tss + sizeofTss ≤ l.gdt
  idtTss : l.idt + sizeofIdt ≤ l.tss ∨ l.tss + sizeofTss ≤ l.idt

/-- `gdt_set_gate`. -/
def gdtSetGate (gdt num base limit access gran : Nat) (m : Mem) : Mem :=
  let e := gdt + 8 * num
  let m := store m (e + 2) (base &&& 0xFFFF) 2
  let m := store m (e + 4) ((base >>> 16) &&& 0xFF) 1
  let m := store m (e + 7) ((base >>> 24) &&& 0xFF) 1
  let m := store m e (limit &&& 0xFFFF) 2
  let m := store m (e + 6) ((limit >>> 16) &&& 0x0F) 1
  let m := store m (e + 6) (load m (e + 6) 1 ||| (gran &&& 0xF0)) 1
  store m (e + 5) access 1

/-- `add`. -/
def add (n handler idt type : Nat) (m : Mem) : Mem :=
  let e := idt + 8 * n
  let m := store m e (handler &&& 0xFFFF) 2
  let m := store m (e + 2) 0x08 2
  let m := store m (e + 4) 0 1
  let m := store m (e + 5) type 1
  store m (e + 6) ((handler >>> 16) &&& 0xFFFF) 2

/-! ## One descriptor -/

/-- What the arguments of `gdt_set_gate` say. -/
def segment (base limit access gran : Nat) : Segment where
  base := base % 2 ^ 32
  limit := limit % 2 ^ 20
  access := access % 2 ^ 8
  flags := gran % 2 ^ 8 / 16

/-- What the arguments of `add` say. -/
def gate (handler type : Nat) : Gate where
  offset := handler % 2 ^ 32
  selector := kernelCs
  type := type % 2 ^ 8

variable {l : Layout} {m m' : Mem} {x : Nat}

theorem and_low (v : Nat) : v &&& 0xFFFF = v % 2 ^ 16 := Nat.and_two_pow_sub_one_eq_mod v 16

theorem and_byte (v : Nat) : v &&& 0xFF = v % 2 ^ 8 := Nat.and_two_pow_sub_one_eq_mod v 8

theorem and_nibble (v : Nat) : v &&& 0x0F = v % 2 ^ 4 := Nat.and_two_pow_sub_one_eq_mod v 4

/-- `granularity` after `|= gran & 0xF0`. -/
theorem granularity_eq (limit gran : Nat) :
    (limit % 2 ^ 4 ||| (gran &&& 0xF0)) % 2 ^ 8 = limit % 2 ^ 4 + 16 * (gran % 2 ^ 8 / 16) := by
  have hByte : gran &&& 0xF0 = gran % 2 ^ 8 &&& 0xF0 := by
    rw [← and_byte, Nat.and_assoc]
    rfl
  have hAll : ∀ a < 16, ∀ g < 256, (a ||| (g &&& 0xF0)) % 256 = a + 16 * (g / 16) := by
    decide +kernel
  rw [hByte]
  exact hAll _ (Nat.mod_lt _ (by decide)) _ (Nat.mod_lt _ (by decide))

/-- **The processor reads what `gdt_set_gate` was told**, as far as the fields reach. -/
theorem segmentAt_gdtSetGate (gdt num base limit access gran : Nat) (m : Mem) :
    segmentAt (gdtSetGate gdt num base limit access gran m) (gdt + 8 * num) =
      segment base limit access gran := by
  have hNibble : limit / 2 ^ 16 % 2 ^ 4 % 2 ^ 8 = limit / 2 ^ 16 % 2 ^ 4 := by omega
  have hGran := granularity_eq (limit / 2 ^ 16) gran
  simp only [segmentAt, segment, gdtSetGate, and_low, and_byte, and_nibble,
    Nat.shiftRight_eq_div_pow]
  simp (disch := omega) only [load_store_apart, load_store_mod, Nat.reducePow]
  simp only [Nat.reducePow] at hNibble hGran
  simp only [hNibble, hGran, Segment.mk.injEq, true_and]
  refine ⟨?_, ?_, ?_⟩
  · omega
  · omega
  · omega

/-- **The processor reads what `add` was told.** -/
theorem gateAt_add (n handler idt type : Nat) (m : Mem) :
    gateAt (add n handler idt type m) (idt + 8 * n) = gate handler type := by
  simp only [gateAt, gate, add, and_low, Nat.shiftRight_eq_div_pow]
  simp (disch := omega) only [load_store_apart, load_store_mod, Nat.reducePow]
  simp only [kernelCs, Gate.mk.injEq, and_true]
  omega

theorem gdtSetGate_apart {gdt num base limit access gran : Nat}
    (h : x < gdt + 8 * num ∨ gdt + 8 * num + 8 ≤ x) :
    gdtSetGate gdt num base limit access gran m x = m x := by
  simp (disch := omega) only [gdtSetGate, store_apply_apart]

theorem add_apart {n handler idt type : Nat} (h : x < idt + 8 * n ∨ idt + 8 * n + 8 ≤ x) :
    add n handler idt type m x = m x := by
  simp (disch := omega) only [add, store_apply_apart]

/-! ## A run of calls -/

/-- The calls that write a table. -/
inductive Call
  | segment (num base limit access gran : Nat)
  | gate (n handler type : Nat)
  deriving Repr, DecidableEq

def Call.run (l : Layout) (m : Mem) : Call → Mem
  | .segment num base limit access gran => gdtSetGate l.gdt num base limit access gran m
  | .gate n handler type => add n handler l.idt type m

/-- The index is one of the array. -/
def Call.InBounds : Call → Prop
  | .segment num _ _ _ _ => num < 6
  | .gate n _ _ => n < 256

instance (c : Call) : Decidable c.InBounds := by
  cases c <;> exact inferInstanceAs (Decidable (_ < _))

/-- The tables as they are meant: a descriptor for each index. -/
@[ext] structure Entries where
  segments : Nat → Segment
  gates : Nat → Gate

/-- The entries that the processor reads. -/
def entries (l : Layout) (m : Mem) : Entries where
  segments num := segmentAt m (l.gdt + 8 * num)
  gates n := gateAt m (l.idt + 8 * n)

/-- A call sets one entry. -/
def Call.apply (e : Entries) : Call → Entries
  | .segment num base limit access gran =>
      { e with
        segments := Function.update e.segments num
          (DescriptorTables.segment base limit access gran) }
  | .gate n handler type =>
      { e with gates := Function.update e.gates n (DescriptorTables.gate handler type) }

/-- The same entries, within the bounds of the arrays. -/
structure Agrees (e e' : Entries) : Prop where
  segments : ∀ num < 6, e.segments num = e'.segments num
  gates : ∀ n < 256, e.gates n = e'.gates n

theorem Call.run_agrees (hApart : l.Apart) {c : Call} (hBound : c.InBounds) {e : Entries}
    (h : Agrees (entries l m) e) : Agrees (entries l (c.run l m)) (c.apply e) := by
  have hTables := hApart.gdtIdt
  unfold sizeofGdt sizeofIdt at hTables
  cases c with
  | segment num base limit access gran =>
      have hNum : num < 6 := hBound
      refine ⟨fun k hk => ?_,
        fun n hn => (gateAt_congr fun x hLow hHigh => ?_).trans (h.gates n hn)⟩
      · by_cases hSame : k = num
        · subst hSame
          simp only [apply, Function.update_self]
          exact segmentAt_gdtSetGate _ _ _ _ _ _ _
        · simp only [apply, Function.update_of_ne hSame]
          refine (segmentAt_congr fun x hLow hHigh => ?_).trans (h.segments k hk)
          exact gdtSetGate_apart (by omega)
      · exact gdtSetGate_apart (by omega)
  | gate n handler type =>
      have hVector : n < 256 := hBound
      refine ⟨fun k hk => (segmentAt_congr fun x hLow hHigh => ?_).trans (h.segments k hk),
        fun k hk => ?_⟩
      · exact add_apart (by omega)
      · by_cases hSame : k = n
        · subst hSame
          simp only [apply, Function.update_self]
          exact gateAt_add _ _ _ _ _
        · simp only [apply, Function.update_of_ne hSame]
          refine (gateAt_congr fun x hLow hHigh => ?_).trans (h.gates k hk)
          exact add_apart (by omega)

/-- The address is in none of the two tables. -/
def Layout.Outside (l : Layout) (x : Nat) : Prop :=
  (x < l.gdt ∨ l.gdt + sizeofGdt ≤ x) ∧ (x < l.idt ∨ l.idt + sizeofIdt ≤ x)

theorem Call.run_outside {c : Call} (hBound : c.InBounds) (h : l.Outside x) :
    c.run l m x = m x := by
  obtain ⟨hGdt, hIdt⟩ := h
  unfold sizeofGdt at hGdt
  unfold sizeofIdt at hIdt
  cases c with
  | segment num base limit access gran =>
      have hNum : num < 6 := hBound
      exact gdtSetGate_apart (by omega)
  | gate n handler type =>
      have hVector : n < 256 := hBound
      exact add_apart (by omega)

/-- **Any calls in any order**: the processor reads in each entry what the last
call for it was told, the other entries are as they were, and so is all memory
outside the tables. -/
theorem calls_agree (hApart : l.Apart) : ∀ {calls : List Call} {m : Mem},
    (∀ c ∈ calls, c.InBounds) →
      Agrees (entries l (calls.foldl (Call.run l) m)) (calls.foldl Call.apply (entries l m)) ∧
        ∀ x, l.Outside x → calls.foldl (Call.run l) m x = m x := by
  have hRun : ∀ (calls : List Call) (m : Mem) (e : Entries), (∀ c ∈ calls, c.InBounds) →
      Agrees (entries l m) e →
        Agrees (entries l (calls.foldl (Call.run l) m)) (calls.foldl Call.apply e) ∧
          ∀ x, l.Outside x → calls.foldl (Call.run l) m x = m x := by
    intro calls
    induction calls with
    | nil => exact fun m e _ h => ⟨h, fun _ _ => rfl⟩
    | cons c calls ih =>
        intro m e hBounds h
        rw [List.forall_mem_cons] at hBounds
        obtain ⟨hAgree, hSame⟩ := ih _ _ hBounds.2 (Call.run_agrees hApart hBounds.1 h)
        exact ⟨hAgree, fun x hx => (hSame x hx).trans (Call.run_outside hBounds.1 hx)⟩
  exact fun {_ _} hBounds => hRun _ _ _ hBounds ⟨fun _ _ => rfl, fun _ _ => rfl⟩

/-! ## The tables of the kernel -/

/-- `init_tss`. -/
def initTss (l : Layout) (m : Mem) : Mem :=
  let m := gdtSetGate l.gdt 5 l.tss (sizeofTss - 1) 0x89 0x40 m
  let m := fill 0 l.tss sizeofTss m
  let m := store m (l.tss + 8) kernelDs 2
  let m := store m (l.tss + 4) 0x90000 4
  store m (l.tss + 102) sizeofTss 2

/-- `tss_flush`: `ltr` marks the descriptor as busy. -/
def tssFlush (l : Layout) (m : Mem) : Mem :=
  store m (l.gdt + 0x28 + 5) (load m (l.gdt + 0x28 + 5) 1 ||| 2) 1

/-- `init_gdt`. -/
def initGdt (l : Layout) (m : Mem) : Mem :=
  let m := gdtSetGate l.gdt 0 0 0 0 0 m
  let m := gdtSetGate l.gdt 1 0 0xFFFFFFFF 0x9A 0xCF m
  let m := gdtSetGate l.gdt 2 0 0xFFFFFFFF 0x92 0xCF m
  let m := gdtSetGate l.gdt 3 0 0xFFFFFFFF 0xFA 0xCF m
  let m := gdtSetGate l.gdt 4 0 0xFFFFFFFF 0xF3 0xCF m
  tssFlush l (initTss l m)

/-- The addresses of the entry stubs. -/
structure Handlers where
  irq0 : Nat
  isr8 : Nat
  isr13 : Nat
  isr14 : Nat
  syscallHandler : Nat
  keyboardIsr : Nat

/-- The calls of `add` in `kernel`. -/
def gateCalls (h : Handlers) : List Call :=
  [ .gate 32 h.irq0 0x8E, .gate 8 h.isr8 0x8E, .gate 13 h.isr13 0x8E, .gate 14 h.isr14 0x8E,
    .gate 0x80 h.syscallHandler 0xEE, .gate 33 h.keyboardIsr 0x8E ]

def installGates (l : Layout) (h : Handlers) (m : Mem) : Mem :=
  (gateCalls h).foldl (Call.run l) m

/-- The table registers after `gdt_flush`, `tss_flush` and `load_idt`. -/
def tables (l : Layout) : Tables where
  gdt := l.gdt
  gdtLimit := sizeofGdt - 1
  idt := l.idt
  idtLimit := sizeofIdt - 1
  tss := l.tss

/-- The stub for a vector. -/
def handlerOf (h : Handlers) : Nat → Option Nat
  | 8 => some h.isr8
  | 13 => some h.isr13
  | 14 => some h.isr14
  | 32 => some h.irq0
  | 33 => some h.keyboardIsr
  | 0x80 => some h.syscallHandler
  | _ => none

/-- The type of the gate for a vector with a stub. -/
def typeOf (v : Nat) : Nat := if v = 0x80 then 0xEE else 0x8E

/-- An entry of `idt` that `add` has not written. -/
def emptyGate : Gate where
  offset := 0
  selector := 0
  type := 0

/-- What the processor finds in the tables. -/
structure Installed (l : Layout) (h : Handlers) (esp0 : Nat) (m : Mem) : Prop where
  kernelCode : segmentAt m (l.gdt + kernelCs) = segment 0 0xFFFFFFFF 0x9A 0xCF
  kernelData : segmentAt m (l.gdt + kernelDs) = segment 0 0xFFFFFFFF 0x92 0xCF
  userCode : segmentAt m (l.gdt + 0x18) = segment 0 0xFFFFFFFF 0xFA 0xCF
  userData : segmentAt m (l.gdt + 0x20) = segment 0 0xFFFFFFFF 0xF3 0xCF
  task : segmentAt m (l.gdt + 0x28) = segment l.tss (sizeofTss - 1) 0x8B 0x40
  gates : ∀ n < 256, gateAt m (l.idt + 8 * n) =
    (handlerOf h n).elim emptyGate fun handler => gate handler (typeOf n)
  stackSegment : load m (l.tss + 8) 2 = kernelDs
  stackPointer : load m (l.tss + 4) 4 = esp0
  iomap : load m (l.tss + 102) 2 = sizeofTss

/-- The calls of `gdt_set_gate` in `init_gdt` and `init_tss`. -/
def segmentCalls (l : Layout) : List Call :=
  [ .segment 0 0 0 0 0, .segment 1 0 0xFFFFFFFF 0x9A 0xCF, .segment 2 0 0xFFFFFFFF 0x92 0xCF,
    .segment 3 0 0xFFFFFFFF 0xFA 0xCF, .segment 4 0 0xFFFFFFFF 0xF3 0xCF,
    .segment 5 l.tss (sizeofTss - 1) 0x89 0x40 ]

/-- The stores of `init_tss` into `tss`. -/
def taskState (l : Layout) (m : Mem) : Mem :=
  store (store (store (fill 0 l.tss sizeofTss m) (l.tss + 8) kernelDs 2) (l.tss + 4) 0x90000 4)
    (l.tss + 102) sizeofTss 2

theorem initGdt_eq (l : Layout) (m : Mem) :
    initGdt l m = tssFlush l (taskState l ((segmentCalls l).foldl (Call.run l) m)) := rfl

theorem taskState_apart (h : x < l.tss ∨ l.tss + sizeofTss ≤ x) : taskState l m x = m x := by
  unfold sizeofTss at h
  unfold taskState
  rw [fill_eq_transfer, store_apply_apart (by omega), store_apply_apart (by omega),
    store_apply_apart (by omega), transfer_apart (by unfold sizeofTss; omega)]

theorem tssFlush_apart (h : x ≠ l.gdt + 0x28 + 5) : tssFlush l m x = m x :=
  store_apply_apart (by omega)

/-- `gdt` after `init_gdt`. -/
theorem initGdt_segments (hApart : l.Apart) (m : Mem) :
    ∀ num < 6, segmentAt (initGdt l m) (l.gdt + 8 * num) =
      if num = 5 then segment l.tss (sizeofTss - 1) 0x8B 0x40
      else ((segmentCalls l).foldl Call.apply (entries l m)).segments num := by
  obtain ⟨⟨hSegments, -⟩, -⟩ := calls_agree (m := m) hApart
    (show ∀ c ∈ segmentCalls l, c.InBounds by simp [segmentCalls, Call.InBounds])
  have hTables := hApart.gdtTss
  unfold sizeofGdt sizeofTss at hTables
  have hTask : ∀ num < 6, ∀ x, l.gdt + 8 * num ≤ x → x < l.gdt + 8 * num + 8 →
      taskState l ((segmentCalls l).foldl (Call.run l) m) x =
        (segmentCalls l).foldl (Call.run l) m x := fun num hNum x hLow hHigh =>
    taskState_apart (by unfold sizeofTss; omega)
  intro num hNum
  rw [initGdt_eq, ← hSegments num hNum]
  split
  · next hLast =>
      subst hLast
      have hBusy : segmentAt ((segmentCalls l).foldl (Call.run l) m) (l.gdt + 8 * 5) =
          segment l.tss (sizeofTss - 1) 0x89 0x40 := hSegments 5 (by decide)
      rw [← segmentAt_congr (hTask 5 (by decide))] at hBusy
      generalize taskState l ((segmentCalls l).foldl (Call.run l) m) = b at hBusy ⊢
      have hAccess : load b (l.gdt + 0x28 + 5) 1 = 0x89 := congrArg Segment.access hBusy
      simp only [segmentAt, segment, Segment.mk.injEq, Nat.reduceMul] at hBusy ⊢
      simp only [tssFlush, hAccess]
      simp (disch := omega) only [load_store_apart, load_store_mod]
      exact ⟨hBusy.1, hBusy.2.1, by decide, hBusy.2.2.2⟩
  · next hOther =>
      refine (segmentAt_congr fun x hLow hHigh => ?_)
      rw [tssFlush_apart (by omega), hTask num hNum x hLow hHigh]

/-- `init_gdt` does not write `idt`. -/
theorem initGdt_gates (hApart : l.Apart) (m : Mem) :
    ∀ n < 256, gateAt (initGdt l m) (l.idt + 8 * n) = gateAt m (l.idt + 8 * n) := by
  obtain ⟨⟨-, hGates⟩, -⟩ := calls_agree (m := m) hApart
    (show ∀ c ∈ segmentCalls l, c.InBounds by simp [segmentCalls, Call.InBounds])
  intro n hn
  refine Eq.trans (gateAt_congr fun x hLow hHigh => ?_) (hGates n hn)
  have hGdt := hApart.gdtIdt
  have hTask := hApart.idtTss
  unfold sizeofGdt sizeofIdt at hGdt
  unfold sizeofIdt sizeofTss at hTask
  rw [initGdt_eq, tssFlush_apart (by omega), taskState_apart (by unfold sizeofTss; omega)]

theorem gateAt_zero {a : Nat} (h : ∀ x, a ≤ x → x < a + 8 → m x = 0) : gateAt m a = emptyGate :=
  gateAt_congr (m := fun _ => 0) h

/-- `idt` after the calls of `add`. -/
theorem gates_eq (h : Handlers) (e : Entries) (n : Nat) (hEmpty : e.gates n = emptyGate) :
    ((gateCalls h).foldl Call.apply e).gates n =
      (handlerOf h n).elim emptyGate fun handler => gate handler (typeOf n) := by
  simp only [gateCalls, List.foldl_cons, List.foldl_nil, Call.apply, Function.update_apply]
  by_cases hStub : n ∈ [33, 0x80, 14, 13, 8, 32]
  · simp only [List.mem_cons, List.not_mem_nil, or_false] at hStub
    rcases hStub with rfl | rfl | rfl | rfl | rfl | rfl <;> rfl
  · simp only [List.mem_cons, List.not_mem_nil, or_false, not_or] at hStub
    obtain ⟨h33, h80, h14, h13, h8, h32⟩ := hStub
    have hNone : handlerOf h n = none := by
      unfold handlerOf
      split <;> first | omega | rfl
    simp only [h33, h80, h14, h13, h8, h32, if_false, hEmpty, hNone, Option.elim_none]

/-- **The tables of the kernel**, when `.bss` was zero. -/
theorem installed (hApart : l.Apart) (h : Handlers) {m : Mem}
    (hZero : ∀ x, l.idt ≤ x → x < l.idt + sizeofIdt → m x = 0) :
    Installed l h 0x90000 (installGates l h (initGdt l m)) := by
  have hBounds : ∀ c ∈ gateCalls h, c.InBounds := by simp [gateCalls, Call.InBounds]
  obtain ⟨⟨hSegments, hGates⟩, hOutside⟩ := calls_agree (m := initGdt l m) hApart hBounds
  have hStays : ∀ num < 6, segmentAt (installGates l h (initGdt l m)) (l.gdt + 8 * num) =
      segmentAt (initGdt l m) (l.gdt + 8 * num) := hSegments
  have hInit := initGdt_segments hApart m
  have hTask : ∀ k n, k + n ≤ 104 → load (installGates l h (initGdt l m)) (l.tss + k) n =
      load (taskState l ((segmentCalls l).foldl (Call.run l) m)) (l.tss + k) n := by
    intro k n hk
    have hFirst := hApart.gdtTss
    have hSecond := hApart.idtTss
    unfold sizeofGdt sizeofTss at hFirst
    unfold sizeofIdt sizeofTss at hSecond
    refine load_congr fun x hLow hHigh => ?_
    refine (hOutside x ⟨by unfold sizeofGdt; omega, by unfold sizeofIdt; omega⟩).trans ?_
    rw [initGdt_eq, tssFlush_apart (by omega)]
  refine ⟨?_, ?_, ?_, ?_, ?_, fun n hn => ?_, ?_, ?_, ?_⟩
  · exact (hStays 1 (by decide)).trans (hInit 1 (by decide))
  · exact (hStays 2 (by decide)).trans (hInit 2 (by decide))
  · exact (hStays 3 (by decide)).trans (hInit 3 (by decide))
  · exact (hStays 4 (by decide)).trans (hInit 4 (by decide))
  · exact (hStays 5 (by decide)).trans (hInit 5 (by decide))
  · refine (hGates n hn).trans (gates_eq h _ n ?_)
    refine (initGdt_gates hApart m n hn).trans (gateAt_zero fun x hLow hHigh => ?_)
    exact hZero x (by omega) (by unfold sizeofIdt; omega)
  · rw [hTask 8 2 (by decide), taskState, load_store_apart (by omega), load_store_apart (by omega),
      load_store_mod]
    rfl
  · rw [hTask 4 4 (by decide), taskState, load_store_apart (by omega), load_store_mod]
    rfl
  · rw [hTask 102 2 (by decide), taskState, load_store_mod]
    rfl

/-! ## While the kernel runs -/

/-- The address is in one of the three areas. -/
def Layout.Holds (l : Layout) (x : Nat) : Prop :=
  (l.gdt ≤ x ∧ x < l.gdt + sizeofGdt) ∨ (l.idt ≤ x ∧ x < l.idt + sizeofIdt) ∨
    (l.tss ≤ x ∧ x < l.tss + sizeofTss)

instance (l : Layout) (x : Nat) : Decidable (l.Holds x) := inferInstanceAs (Decidable (_ ∨ _))

/-- A write after `kernel` has set the tables up. -/
inductive Write
  /-- `tss.esp0 = value` in `context_switch`. -/
  | esp0 (value : Nat)
  | byte (a : Nat) (b : UInt8)
  deriving DecidableEq

def Write.run (l : Layout) (m : Mem) : Write → Mem
  | .esp0 value => store m (l.tss + 4) value 4
  | .byte a b => setByte m a b

/-- Nothing but `tss.esp0` is written in the tables. -/
def Write.Spares (l : Layout) : Write → Prop
  | .esp0 value => value < 2 ^ 32
  | .byte a _ => ¬l.Holds a

instance (l : Layout) (w : Write) : Decidable (w.Spares l) := by
  cases w
  · exact inferInstanceAs (Decidable (_ < _))
  · exact inferInstanceAs (Decidable (¬_))

def Write.newEsp0 (old : Nat) : Write → Nat
  | .esp0 value => value
  | .byte _ _ => old

section

variable {h : Handlers} {esp0 : Nat}

theorem Installed.frame (hInstalled : Installed l h esp0 m)
    (hSame : ∀ x, l.Holds x → m' x = m x) : Installed l h esp0 m' := by
  have hSegment : ∀ k, k + 8 ≤ sizeofGdt → segmentAt m' (l.gdt + k) = segmentAt m (l.gdt + k) :=
    fun k hk => segmentAt_congr fun x hLow hHigh => hSame x (Or.inl (by omega))
  have hTask : ∀ k n, k + n ≤ sizeofTss → load m' (l.tss + k) n = load m (l.tss + k) n :=
    fun k n hk => load_congr fun x hLow hHigh => hSame x (Or.inr (Or.inr (by omega)))
  obtain ⟨hCode, hData, hUserCode, hUserData, hBusy, hGates, hSs, hEsp, hMap⟩ := hInstalled
  refine ⟨?_, ?_, ?_, ?_, ?_, fun n hn => ?_, ?_, ?_, ?_⟩
  · exact (hSegment kernelCs (by decide)).trans hCode
  · exact (hSegment kernelDs (by decide)).trans hData
  · exact (hSegment 0x18 (by decide)).trans hUserCode
  · exact (hSegment 0x20 (by decide)).trans hUserData
  · exact (hSegment 0x28 (by decide)).trans hBusy
  · refine (gateAt_congr fun x hLow hHigh => hSame x ?_).trans (hGates n hn)
    exact Or.inr (Or.inl ⟨by omega, by unfold sizeofIdt; omega⟩)
  · exact (hTask 8 2 (by decide)).trans hSs
  · exact (hTask 4 4 (by decide)).trans hEsp
  · exact (hTask 102 2 (by decide)).trans hMap

theorem Installed.setEsp0 (hApart : l.Apart) (hInstalled : Installed l h esp0 m) {value : Nat}
    (hValue : value < 2 ^ 32) : Installed l h value (store m (l.tss + 4) value 4) := by
  have hFirst := hApart.gdtTss
  have hSecond := hApart.idtTss
  unfold sizeofGdt sizeofTss at hFirst
  unfold sizeofIdt sizeofTss at hSecond
  obtain ⟨hCode, hData, hUserCode, hUserData, hBusy, hGates, hSs, -, hMap⟩ := hInstalled
  have hSegment : ∀ k, k + 8 ≤ 48 →
      segmentAt (store m (l.tss + 4) value 4) (l.gdt + k) = segmentAt m (l.gdt + k) :=
    fun k hk => segmentAt_congr fun x hLow hHigh => store_apply_apart (by omega)
  refine ⟨?_, ?_, ?_, ?_, ?_, fun n hn => ?_, ?_, ?_, ?_⟩
  · exact (hSegment kernelCs (by decide)).trans hCode
  · exact (hSegment kernelDs (by decide)).trans hData
  · exact (hSegment 0x18 (by decide)).trans hUserCode
  · exact (hSegment 0x20 (by decide)).trans hUserData
  · exact (hSegment 0x28 (by decide)).trans hBusy
  · exact (gateAt_congr fun x hLow hHigh => store_apply_apart (by omega)).trans (hGates n hn)
  · rw [load_store_apart (by omega), hSs]
  · exact load_store_self hValue
  · rw [load_store_apart (by omega), hMap]

/-- **The tables stay in place** over any writes that spare them. -/
theorem Installed.run (hApart : l.Apart) : ∀ (writes : List Write) {m : Mem} {esp0 : Nat},
    (∀ w ∈ writes, w.Spares l) → Installed l h esp0 m →
      Installed l h (writes.foldl Write.newEsp0 esp0) (writes.foldl (Write.run l) m) := by
  intro writes
  induction writes with
  | nil => exact fun _ hInstalled => hInstalled
  | cons w writes ih =>
      intro m esp0 hSpares hInstalled
      rw [List.forall_mem_cons] at hSpares
      refine ih hSpares.2 ?_
      cases w with
      | esp0 value => exact hInstalled.setEsp0 hApart hSpares.1
      | byte a b =>
          refine hInstalled.frame fun x hx => setByte_ne b ?_
          rintro rfl
          exact hSpares.1 hx

/-! ## Where events go -/

/-- The stub of its own vector may answer the event: a program calls `0x80` only. -/
def Served (cpl : Nat) (e : Event) : Prop :=
  e.vector ∈ [8, 13, 14, 32, 33, 0x80] ∧ (e.origin = .software → e.vector = 0x80 ∨ cpl = 0)

instance (cpl : Nat) (e : Event) : Decidable (Served cpl e) := inferInstanceAs (Decidable (_ ∧ _))

/-- The event whose stub is entered. -/
def target (cpl : Nat) (e : Event) : Event :=
  if Served cpl e then e else if e.Contributory then doubleFault else e.protection

theorem handlerOf_isSome (h : Handlers) (n : Nat) :
    (handlerOf h n).isSome ↔ n ∈ [8, 13, 14, 32, 33, 0x80] := by
  constructor
  · intro hSome
    unfold handlerOf at hSome
    split at hSome <;> first | decide | cases hSome
  · intro hIn
    simp only [List.mem_cons, List.not_mem_nil, or_false] at hIn
    rcases hIn with rfl | rfl | rfl | rfl | rfl | rfl <;> rfl

theorem Installed.gate_of_some (hInstalled : Installed l h esp0 m) {n handler : Nat}
    (hn : n < 256) (hSome : handlerOf h n = some handler) :
    gateAt m (l.idt + 8 * n) = gate handler (typeOf n) := by
  rw [hInstalled.gates n hn, hSome, Option.elim_some]

theorem gate_valid (handler n : Nat) :
    (gate handler (typeOf n)).Valid ∧ (gate handler (typeOf n)).Present ∧
      (gate handler (typeOf n)).dpl = if n = 0x80 then 3 else 0 := by
  unfold typeOf
  split
  · exact ⟨by simp [gate, Gate.Valid], by simp [gate, Gate.Present], by simp [gate, Gate.dpl]⟩
  · exact ⟨by simp [gate, Gate.Valid], by simp [gate, Gate.Present], by simp [gate, Gate.dpl]⟩

/-- The tables of the kernel serve every event. -/
theorem Installed.serves (hInstalled : Installed l h esp0 m) :
    Serves m (tables l) kernelCs (esp0, kernelDs) where
  idtLimit := Nat.le_refl 2047
  code := by
    intro cpl ext
    have hCode : segmentAt m ((tables l).gdt + 8 * (kernelCs / 8)) =
        segment 0 0xFFFFFFFF 0x9A 0xCF := hInstalled.kernelCode
    unfold codeTarget
    simp only [hCode]
    simp [segment, kernelCs, tables, sizeofGdt, Segment.Code, Segment.Present, Segment.Conforming,
      Segment.dpl]
  stack := by
    intro ext
    have hData : segmentAt m ((tables l).gdt + 8 * (kernelDs / 8)) =
        segment 0 0xFFFFFFFF 0x92 0xCF := hInstalled.kernelData
    have hSs : load m ((tables l).tss + 8 * 0 + 8) 2 = kernelDs := hInstalled.stackSegment
    have hEsp : load m ((tables l).tss + 8 * 0 + 4) 4 = esp0 := hInstalled.stackPointer
    unfold innerStack
    simp only [hSs, hEsp, hData]
    simp [segment, kernelDs, tables, sizeofGdt, Segment.WritableData, Segment.Present, Segment.dpl]
  gates := by
    intro v hv hValid
    cases hSome : handlerOf h v with
    | none =>
        rw [show gateAt m ((tables l).idt + 8 * v) = emptyGate by
          rw [show (tables l).idt = l.idt from rfl, hInstalled.gates v hv, hSome]
          rfl] at hValid
        exact absurd hValid (by decide)
    | some handler =>
        rw [show gateAt m ((tables l).idt + 8 * v) = gate handler (typeOf v) from
          hInstalled.gate_of_some hv hSome]
        exact ⟨(gate_valid handler v).2.1, rfl⟩

theorem Installed.refused_iff (hInstalled : Installed l h esp0 m) {cpl : Nat} (hRing : cpl ≤ 3)
    {e : Event} (hVector : e.vector < 256) :
    Refused m (tables l) cpl e ↔ ¬Served cpl e := by
  have hIdt : (tables l).idt = l.idt := rfl
  unfold Refused Served
  rw [hIdt]
  cases hSome : handlerOf h e.vector with
  | none =>
      have hOut : ¬e.vector ∈ [8, 13, 14, 32, 33, 0x80] := by
        rw [← handlerOf_isSome h, hSome]
        simp
      rw [hInstalled.gates e.vector hVector, hSome, Option.elim_none]
      exact ⟨fun _ hServed => hOut hServed.1, fun _ => Or.inl (by decide)⟩
  | some handler =>
      have hIn : e.vector ∈ [8, 13, 14, 32, 33, 0x80] := by
        rw [← handlerOf_isSome h, hSome]
        rfl
      obtain ⟨hValid, -, hDpl⟩ := gate_valid handler e.vector
      rw [hInstalled.gate_of_some hVector hSome, hDpl]
      simp only [hValid, hIn, not_true_eq_false, false_or, true_and]
      split
      · next hCall => simp [hCall, hRing]
      · next hCall =>
          simp only [hCall, false_or]
          constructor
          · rintro ⟨hSoftware, hOuter⟩ hInner
            exact absurd (hInner hSoftware) (by omega)
          · intro hNot
            rw [Classical.not_imp] at hNot
            exact ⟨hNot.1, by omega⟩

/-- The delivery that `target` predicts. -/
theorem Installed.deliver_target (hInstalled : Installed l h esp0 m) {cpl : Nat} (hRing : cpl ≤ 3)
    {e : Event} (hVector : e.vector < 256) :
    ∃ address, handlerOf h (target cpl e).vector = some address ∧
      deliver m (tables l) cpl e = .enters
        { vector := (target cpl e).vector
          code := (target cpl e).origin.code
          eip := address % 2 ^ 32
          cs := kernelCs
          stack := if 0 < cpl then some (esp0, kernelDs) else none } := by
  have hValidAt : ∀ n < 256, (handlerOf h n).isSome →
      (gateAt m ((tables l).idt + 8 * n)).Valid := by
    intro n hn hSome
    obtain ⟨handler, hHandler⟩ := Option.isSome_iff_exists.mp hSome
    rw [show (tables l).idt = l.idt from rfl, hInstalled.gate_of_some hn hHandler]
    exact (gate_valid handler n).1
  have hDeliver := deliver_eq hInstalled.serves (hValidAt 8 (by decide) rfl)
    (hValidAt 13 (by decide) rfl) hVector cpl
  have hTarget : answered m (tables l) cpl e = target cpl e := by
    unfold answered target
    simp only [hInstalled.refused_iff hRing hVector, not_not]
  have hIn : (target cpl e).vector ∈ [8, 13, 14, 32, 33, 0x80] := by
    unfold target
    split
    · next hServed => exact hServed.1
    · split
      · show 8 ∈ [8, 13, 14, 32, 33, 0x80]
        decide
      · show 13 ∈ [8, 13, 14, 32, 33, 0x80]
        decide
  have hSmall : (target cpl e).vector < 256 := by
    simp only [List.mem_cons, List.not_mem_nil, or_false] at hIn
    omega
  obtain ⟨address, hAddress⟩ := Option.isSome_iff_exists.mp ((handlerOf_isSome h _).mpr hIn)
  refine ⟨address, hAddress, ?_⟩
  rw [hDeliver, hTarget, entryFor, show (tables l).idt = l.idt from rfl,
    hInstalled.gate_of_some hSmall hAddress]
  rfl

end

/-- The events there are: a program's `int n`, the interrupts of the two
controllers, and the exceptions, some of which have an error code. -/
structure Possible (cpl : Nat) (e : Event) : Prop where
  ring : cpl ≤ 3
  vector : e.vector < 256
  software : e.origin = .software → cpl = 3
  external : e.origin = .external → 32 ≤ e.vector ∧ e.vector < 48
  exception : ∀ code, e.origin = .exception code →
    (code.isSome ↔ e.vector ∈ [8, 10, 11, 12, 13, 14, 17, 21, 29, 30])

/-- A stub that takes an error code from the stack finds one. -/
theorem target_code {cpl : Nat} {e : Event} (h : Possible cpl e)
    (hFault : (target cpl e).vector ∈ [8, 13, 14]) : (target cpl e).origin.code.isSome := by
  unfold target at hFault ⊢
  split
  · next hServed =>
      rw [if_pos hServed] at hFault
      cases hOrigin : e.origin with
      | software =>
          rcases hServed.2 hOrigin with hCall | hRing
          · rw [hCall] at hFault
            exact absurd hFault (by decide)
          · exact absurd (h.software hOrigin) (by omega)
      | external =>
          have hRange := h.external hOrigin
          simp only [List.mem_cons, List.not_mem_nil, or_false] at hFault
          omega
      | exception code =>
          refine (h.exception code hOrigin).mpr ?_
          simp only [List.mem_cons, List.not_mem_nil, or_false] at hFault ⊢
          omega
  · split <;> rfl

/-- **Every event reaches a stub of the kernel.**  However memory outside the
tables is written and however often `tss.esp0` changes, an event at any ring
enters the stub of `target` in ring 0, from an outer ring on the stack
`tss.esp0` names.  The fault stubs always find an error code, and a program gets
into no stub of an interrupt. -/
theorem kernel_delivers (hApart : l.Apart) (h : Handlers)
    (hZero : ∀ x, l.idt ≤ x → x < l.idt + sizeofIdt → m x = 0) {writes : List Write}
    (hSpares : ∀ w ∈ writes, w.Spares l) {cpl : Nat} {e : Event} (hPossible : Possible cpl e) :
    (∃ address, handlerOf h (target cpl e).vector = some address ∧
      deliver (writes.foldl (Write.run l) (installGates l h (initGdt l m))) (tables l) cpl e =
        .enters
          { vector := (target cpl e).vector
            code := (target cpl e).origin.code
            eip := address % 2 ^ 32
            cs := kernelCs
            stack :=
              if 0 < cpl then some (writes.foldl Write.newEsp0 0x90000, kernelDs) else none }) ∧
      ((target cpl e).vector ∈ [8, 13, 14] → (target cpl e).origin.code.isSome) ∧
        (e.origin = .software → target cpl e = if e.vector = 0x80 then e else e.protection) := by
  have hInstalled := Installed.run hApart writes hSpares (installed hApart h hZero)
  refine ⟨hInstalled.deliver_target hPossible.ring hPossible.vector, target_code hPossible,
    fun hSoftware => ?_⟩
  have hBenign : ¬e.Contributory := by
    rintro ⟨⟨code, hCode⟩, -⟩
    rw [hSoftware] at hCode
    cases hCode
  have hUser := hPossible.software hSoftware
  unfold target
  by_cases hCall : e.vector = 0x80
  · rw [if_pos hCall, if_pos ⟨by rw [hCall]; decide, fun _ => Or.inl hCall⟩]
  · have hOut : ¬Served cpl e := by
      rintro ⟨-, hOnly⟩
      rcases hOnly hSoftware with hSame | hRing
      · exact hCall hSame
      · omega
    rw [if_neg hCall, if_neg hOut, if_neg hBenign]

/-- A program divides by zero: there is no gate for vector 0. -/
theorem kernel_delivers_divide :
    deliver ([Write.esp0 0x2B000, .byte 0x1000 7].foldl (Write.run ⟨0x30000, 0x31000, 0x32000⟩)
        (installGates ⟨0x30000, 0x31000, 0x32000⟩
          ⟨0x10100, 0x10200, 0x10300, 0x10400, 0x10500, 0x10600⟩
          (initGdt ⟨0x30000, 0x31000, 0x32000⟩ fun _ => 0)))
      (tables ⟨0x30000, 0x31000, 0x32000⟩) 3 ⟨0, .exception none⟩ =
        .enters ⟨8, some 0, 0x10200, 0x08, some (0x2B000, 0x10)⟩ := by
  have hPossible : Possible 3 ⟨0, .exception none⟩ :=
    ⟨by decide, by decide, by decide, by decide, by rintro code ⟨⟩; decide⟩
  obtain ⟨⟨address, hAddress, hDeliver⟩, -⟩ :=
    kernel_delivers (l := ⟨0x30000, 0x31000, 0x32000⟩) (m := fun _ => 0)
      ⟨by decide, by decide, by decide⟩
      ⟨0x10100, 0x10200, 0x10300, 0x10400, 0x10500, 0x10600⟩ (fun _ _ _ => rfl)
      (show ∀ w ∈ [Write.esp0 0x2B000, .byte 0x1000 7], w.Spares ⟨0x30000, 0x31000, 0x32000⟩ by
        decide) hPossible
  obtain rfl : (0x10200 : Nat) = address := Option.some.inj hAddress
  exact hDeliver

end MiniKernel.Ports.DescriptorTables

import MiniKernel.Verified.ByteMemory

/-!
# Descriptor tables and the delivery of interrupts

What a 32-bit protected-mode processor reads from its descriptor tables, and
where an interrupt or an exception takes it.  A fault met on the way is an
exception of its own, delivered in place of the first or turned into a double
fault; a fault in the delivery of a double fault shuts the processor down.

Only 32-bit interrupt and trap gates are taken for valid, there is no local
table, and the task state segment is long enough.

## Main results

* `deliver_eq`: with usable gates for general protection and double faults, and
  every other gate usable or invalid, each event reaches a handler, and which
  one.
-/

namespace MiniKernel.Verified.Protection

open MiniKernel.Verified.ByteMemory

/-! ## Descriptors -/

/-- A segment descriptor. -/
structure Segment where
  base : Nat
  limit : Nat
  access : Nat
  flags : Nat
  deriving Repr, DecidableEq

/-- The descriptor in the eight bytes at `a`. -/
def segmentAt (m : Mem) (a : Nat) : Segment where
  base := load m (a + 2) 2 + 2 ^ 16 * load m (a + 4) 1 + 2 ^ 24 * load m (a + 7) 1
  limit := load m a 2 + 2 ^ 16 * (load m (a + 6) 1 % 16)
  access := load m (a + 5) 1
  flags := load m (a + 6) 1 / 16

def Segment.Present (s : Segment) : Prop := s.access / 128 % 2 = 1

def Segment.dpl (s : Segment) : Nat := s.access / 32 % 4

def Segment.Code (s : Segment) : Prop := s.access / 8 % 4 = 3

def Segment.Conforming (s : Segment) : Prop := s.access / 4 % 2 = 1

def Segment.WritableData (s : Segment) : Prop := s.access / 8 % 4 = 2 ∧ s.access / 2 % 2 = 1

/-- How many bytes the segment has; bit 3 of the flags counts the limit in pages. -/
def Segment.size (s : Segment) : Nat :=
  if s.flags / 8 % 2 = 1 then (s.limit + 1) * 4096 else s.limit + 1

instance (s : Segment) : Decidable s.Present := inferInstanceAs (Decidable (_ = _))
instance (s : Segment) : Decidable s.Code := inferInstanceAs (Decidable (_ = _))
instance (s : Segment) : Decidable s.Conforming := inferInstanceAs (Decidable (_ = _))
instance (s : Segment) : Decidable s.WritableData := inferInstanceAs (Decidable (_ ∧ _))

/-- An entry of the interrupt table. -/
structure Gate where
  offset : Nat
  selector : Nat
  type : Nat
  deriving Repr, DecidableEq

/-- The gate in the eight bytes at `a`. -/
def gateAt (m : Mem) (a : Nat) : Gate where
  offset := load m a 2 + 2 ^ 16 * load m (a + 6) 2
  selector := load m (a + 2) 2
  type := load m (a + 5) 1

/-- A 32-bit interrupt or trap gate. -/
def Gate.Valid (g : Gate) : Prop := g.type % 32 = 14 ∨ g.type % 32 = 15

def Gate.Present (g : Gate) : Prop := g.type / 128 % 2 = 1

def Gate.dpl (g : Gate) : Nat := g.type / 32 % 4

instance (g : Gate) : Decidable g.Valid := inferInstanceAs (Decidable (_ ∨ _))
instance (g : Gate) : Decidable g.Present := inferInstanceAs (Decidable (_ = _))

theorem segmentAt_congr {m m' : Mem} {a : Nat} (h : ∀ x, a ≤ x → x < a + 8 → m' x = m x) :
    segmentAt m' a = segmentAt m a := by
  have hLoad : ∀ k n, k + n ≤ 8 → load m' (a + k) n = load m (a + k) n := fun k n hk =>
    load_congr fun x hLow hHigh => h x (by omega) (by omega)
  simp only [segmentAt, hLoad 2 2 (by decide), hLoad 4 1 (by decide), hLoad 7 1 (by decide),
    hLoad 6 1 (by decide), hLoad 5 1 (by decide)]
  rw [show load m' a 2 = load m a 2 from hLoad 0 2 (by decide)]

theorem gateAt_congr {m m' : Mem} {a : Nat} (h : ∀ x, a ≤ x → x < a + 8 → m' x = m x) :
    gateAt m' a = gateAt m a := by
  have hLoad : ∀ k n, k + n ≤ 8 → load m' (a + k) n = load m (a + k) n := fun k n hk =>
    load_congr fun x hLow hHigh => h x (by omega) (by omega)
  simp only [gateAt, hLoad 6 2 (by decide), hLoad 2 2 (by decide), hLoad 5 1 (by decide)]
  rw [show load m' a 2 = load m a 2 from hLoad 0 2 (by decide)]

/-! ## Delivery -/

/-- The registers that name the tables; `tss` is where the current task state
segment lies. -/
structure Tables where
  gdt : Nat
  gdtLimit : Nat
  idt : Nat
  idtLimit : Nat
  tss : Nat

inductive Origin
  /-- `int n`. -/
  | software
  | external
  /-- With the error code, for the exceptions that have one. -/
  | exception (code : Option Nat)
  deriving Repr, DecidableEq

structure Event where
  vector : Nat
  origin : Origin
  deriving Repr, DecidableEq

/-- The bit of an error code that tells an event from outside the program. -/
def Origin.ext : Origin → Nat
  | .software => 0
  | _ => 1

def Origin.code : Origin → Option Nat
  | .exception code => code
  | _ => none

structure Fault where
  vector : Nat
  code : Nat
  deriving Repr, DecidableEq

/-- The handler that is entered: its ring, its code, and the stack pointer and
segment that are loaded when the ring changes. -/
structure Entry where
  vector : Nat
  code : Option Nat
  eip : Nat
  cs : Nat
  stack : Option (Nat × Nat)
  deriving Repr, DecidableEq

/-- The ring in which code runs that is called through the selector. -/
def codeTarget (m : Mem) (t : Tables) (cpl selector ext : Nat) : Except Fault Nat :=
  let s := segmentAt m (t.gdt + 8 * (selector / 8))
  if selector / 4 = 0 then .error ⟨13, ext⟩
  else if selector / 4 % 2 = 1 ∨ t.gdtLimit < 8 * (selector / 8) + 7 ∨ ¬s.Code ∨ cpl < s.dpl then
    .error ⟨13, selector / 4 * 4 + ext⟩
  else if ¬s.Present then .error ⟨11, selector / 4 * 4 + ext⟩
  else .ok (if s.Conforming then cpl else s.dpl)

/-- The stack of an inner ring, from the task state segment. -/
def innerStack (m : Mem) (t : Tables) (ring ext : Nat) : Except Fault (Nat × Nat) :=
  let ss := load m (t.tss + 8 * ring + 8) 2
  let s := segmentAt m (t.gdt + 8 * (ss / 8))
  if ss / 4 = 0 then .error ⟨10, ext⟩
  else if ss / 4 % 2 = 1 ∨ t.gdtLimit < 8 * (ss / 8) + 7 ∨ ss % 4 ≠ ring ∨ s.dpl ≠ ring ∨
      ¬s.WritableData then .error ⟨10, ss / 4 * 4 + ext⟩
  else if ¬s.Present then .error ⟨12, ss / 4 * 4 + ext⟩
  else .ok (load m (t.tss + 8 * ring + 4) 4, ss)

/-- One attempt to enter the handler of an event. -/
def attempt (m : Mem) (t : Tables) (cpl : Nat) (e : Event) : Except Fault Entry :=
  let g := gateAt m (t.idt + 8 * e.vector)
  let ext := e.origin.ext
  if t.idtLimit < 8 * e.vector + 7 ∨ ¬g.Valid then .error ⟨13, 8 * e.vector + 2 + ext⟩
  else if e.origin = .software ∧ g.dpl < cpl then .error ⟨13, 8 * e.vector + 2⟩
  else if ¬g.Present then .error ⟨11, 8 * e.vector + 2 + ext⟩
  else
    (codeTarget m t cpl g.selector ext).bind fun ring =>
      let stack := if ring < cpl then (innerStack m t ring ext).map some else .ok none
      stack.map fun stack =>
        { vector := e.vector
          code := e.origin.code
          eip := g.offset
          cs := g.selector / 4 * 4 + ring
          stack := stack }

inductive Outcome
  | enters (e : Entry)
  | shutdown
  deriving Repr, DecidableEq

/-- The exceptions that make a double fault of a fault in their delivery. -/
def Event.Contributory (e : Event) : Prop :=
  (∃ code, e.origin = .exception code) ∧ e.vector ∈ [0, 10, 11, 12, 13, 14]

instance (e : Event) : Decidable e.Contributory :=
  match h : e.origin with
  | .exception code =>
      decidable_of_iff (e.vector ∈ [0, 10, 11, 12, 13, 14])
        ⟨fun hIn => ⟨⟨code, h⟩, hIn⟩, fun hBoth => hBoth.2⟩
  | .software => .isFalse fun ⟨⟨_, hCode⟩, _⟩ => by simp [h] at hCode
  | .external => .isFalse fun ⟨⟨_, hCode⟩, _⟩ => by simp [h] at hCode

def doubleFault : Event := ⟨8, .exception (some 0)⟩

def deliverDouble (m : Mem) (t : Tables) (cpl : Nat) : Outcome :=
  match attempt m t cpl doubleFault with
  | .ok entry => .enters entry
  | .error _ => .shutdown

/-- A fault met in the delivery of a benign event. -/
def deliverFault (m : Mem) (t : Tables) (cpl : Nat) (f : Fault) : Outcome :=
  match attempt m t cpl ⟨f.vector, .exception (some f.code)⟩ with
  | .ok entry => .enters entry
  | .error _ => deliverDouble m t cpl

def deliver (m : Mem) (t : Tables) (cpl : Nat) (e : Event) : Outcome :=
  match attempt m t cpl e with
  | .ok entry => .enters entry
  | .error f =>
      if e.vector = 8 ∧ e.origin ≠ .software ∧ e.origin ≠ .external then .shutdown
      else if e.Contributory then deliverDouble m t cpl
      else deliverFault m t cpl f

/-! ## Tables that serve every event -/

/-- Code and stack of ring 0 are in place, and each gate leads there or is not
one at all. -/
structure Serves (m : Mem) (t : Tables) (selector : Nat) (stack : Nat × Nat) : Prop where
  idtLimit : 2047 ≤ t.idtLimit
  code : ∀ cpl ext, codeTarget m t cpl selector ext = .ok 0
  stack : ∀ ext, innerStack m t 0 ext = .ok stack
  gates : ∀ v < 256, (gateAt m (t.idt + 8 * v)).Valid →
    (gateAt m (t.idt + 8 * v)).Present ∧ (gateAt m (t.idt + 8 * v)).selector = selector

/-- The table has no gate for the event, or none that the code may call. -/
def Refused (m : Mem) (t : Tables) (cpl : Nat) (e : Event) : Prop :=
  ¬(gateAt m (t.idt + 8 * e.vector)).Valid ∨
    e.origin = .software ∧ (gateAt m (t.idt + 8 * e.vector)).dpl < cpl

instance (m : Mem) (t : Tables) (cpl : Nat) (e : Event) : Decidable (Refused m t cpl e) :=
  inferInstanceAs (Decidable (_ ∨ _))

/-- General protection, for an event that is refused. -/
def Event.protection (e : Event) : Event :=
  ⟨13, .exception (some (8 * e.vector + 2 + e.origin.ext))⟩

/-- The event that is handled in the place of `e`. -/
def answered (m : Mem) (t : Tables) (cpl : Nat) (e : Event) : Event :=
  if ¬Refused m t cpl e then e
  else if e.Contributory then doubleFault
  else e.protection

/-- How the handler of `e` is entered. -/
def entryFor (m : Mem) (t : Tables) (cpl selector : Nat) (stack : Nat × Nat) (e : Event) :
    Entry where
  vector := e.vector
  code := e.origin.code
  eip := (gateAt m (t.idt + 8 * e.vector)).offset
  cs := selector / 4 * 4
  stack := if 0 < cpl then some stack else none

variable {m : Mem} {t : Tables} {selector cpl : Nat} {stack : Nat × Nat} {e : Event}

theorem attempt_ok (h : Serves m t selector stack) (hVector : e.vector < 256)
    (hOpen : ¬Refused m t cpl e) : attempt m t cpl e = .ok (entryFor m t cpl selector stack e) := by
  unfold Refused at hOpen
  rw [not_or, not_not] at hOpen
  obtain ⟨hValid, hCall⟩ := hOpen
  obtain ⟨hPresent, hSelector⟩ := h.gates e.vector hVector hValid
  have hLimit : ¬(t.idtLimit < 8 * e.vector + 7) := by
    have hAll := h.idtLimit
    omega
  unfold attempt
  simp only [hLimit, hValid, hCall, hPresent, hSelector, not_true_eq_false, or_self, if_false,
    h.code, h.stack, Except.bind]
  by_cases hInner : 0 < cpl
  · simp only [hInner, if_true, entryFor, Except.map, Nat.add_zero]
  · simp only [hInner, if_false, entryFor, Except.map, Nat.add_zero]

theorem attempt_refused (hRefused : Refused m t cpl e) :
    attempt m t cpl e = .error ⟨13, 8 * e.vector + 2 + e.origin.ext⟩ := by
  unfold attempt
  by_cases hInvalid : t.idtLimit < 8 * e.vector + 7 ∨ ¬(gateAt m (t.idt + 8 * e.vector)).Valid
  · simp only [hInvalid, if_true]
  · rcases hRefused with hGate | hCall
    · exact absurd (Or.inr hGate) hInvalid
    · simp only [hInvalid, hCall, and_self, if_false, if_true, Origin.ext, Nat.add_zero]

/-- An exception is not refused by a gate. -/
theorem not_refused {code : Option Nat} {v : Nat} (hValid : (gateAt m (t.idt + 8 * v)).Valid) :
    ¬Refused m t cpl ⟨v, .exception code⟩ := by
  rintro (hGate | ⟨hCall, -⟩)
  · exact hGate hValid
  · cases hCall

/-- **Every event reaches a handler.** -/
theorem deliver_eq (h : Serves m t selector stack) (hDouble : (gateAt m (t.idt + 8 * 8)).Valid)
    (hGeneral : (gateAt m (t.idt + 8 * 13)).Valid) (hVector : e.vector < 256) (cpl : Nat) :
    deliver m t cpl e = .enters (entryFor m t cpl selector stack (answered m t cpl e)) := by
  have hDoubleOk : attempt m t cpl doubleFault =
      .ok (entryFor m t cpl selector stack doubleFault) :=
    attempt_ok h (by decide) (not_refused hDouble)
  by_cases hRefused : Refused m t cpl e
  · have hOther : ¬(e.vector = 8 ∧ e.origin ≠ .software ∧ e.origin ≠ .external) := by
      rintro ⟨hEight, hSoftware, -⟩
      rcases hRefused with hGate | ⟨hCall, -⟩
      · rw [hEight] at hGate
        exact hGate hDouble
      · exact hSoftware hCall
    unfold deliver answered
    simp only [attempt_refused hRefused, hOther, hRefused, not_true_eq_false, if_false]
    split
    · unfold deliverDouble
      rw [hDoubleOk]
    · unfold deliverFault
      have hOk : attempt m t cpl e.protection =
          .ok (entryFor m t cpl selector stack e.protection) :=
        attempt_ok h (show 13 < 256 by decide) (not_refused hGeneral)
      show (match attempt m t cpl e.protection with
        | .ok entry => Outcome.enters entry
        | .error _ => deliverDouble m t cpl) = _
      rw [hOk]
  · unfold deliver answered
    simp only [attempt_ok h hVector hRefused, hRefused, not_false_eq_true, if_true]

end MiniKernel.Verified.Protection

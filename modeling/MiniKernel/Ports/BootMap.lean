import MiniKernel.Ports.Pmm
import MiniKernel.Verified.ByteMemory

/-!
# The memory map from the BIOS

`do_e820` of the boot sector asks the BIOS for the memory map, one entry for
each `int 15h`, and leaves the table at `0x504` that `pmm.c` works on.  An
`Answer` is what the processor finds after one interrupt.  The BIOS stores an
entry at `es:di`; the loop keeps it by moving `di` on.

The boot sector's stack ends at `0x7C00` and the entries grow towards it.
`stack` is the lowest address that the stack of the boot sector and the BIOS
reaches; an interrupt with a buffer that is not below it has no result.
-/

namespace MiniKernel.Ports.BootMap

open MiniKernel.Verified.ByteMemory
open MiniKernel.Verified.Cells
open MiniKernel.Ports.Pmm

/-- `mmap_ent`. -/
def mmapEnt : Nat := 0x500

/-- The first value of `di`. -/
def mapStart : Nat := 0x504

/-- The signature in `edx` and in the answer's `eax`. -/
def smap : Nat := 0x534D4150

/-- The flags and registers after `int 15h`, and the entry it stores. -/
structure Answer where
  carry : Bool
  eax : Nat
  ebx : Nat
  ecx : Nat
  entry : MemoryMap
  deriving Repr, DecidableEq

/-- `cx`: how many bytes the BIOS has stored. -/
def Answer.cx (a : Answer) : Nat := a.ecx % 2 ^ 16

structure Machine where
  mem : Mem
  di : Nat
  bp : Nat

/-- The entry that is stored at `p`. -/
def entryAt (m : Mem) (p : Nat) : MemoryMap where
  base := load m p 8
  length := load m (p + 8) 8
  type := load m (p + 16) 4
  acpi := load m (p + 20) 4

/-- The table `pmm.c` finds: `*entry` and `map`. -/
def bootTable (m : Mem) : Table where
  entry := load m mmapEnt 2
  map k := entryAt m (mapStart + 24 * k)

/-- The BIOS stores the entry; the short form has no `acpi`. -/
def putEntry (m : Mem) (p : Nat) (a : Answer) : Mem :=
  let m₁ := store (store (store m p a.entry.base 8) (p + 8) a.entry.length 8) (p + 16)
    a.entry.type 4
  if a.cx = 24 then store m₁ (p + 20) a.entry.acpi 4 else m₁

/-- `mov [es:di+20], dword 1` and the interrupt. -/
def int15 (stack : Nat) (c : Machine) (a : Answer) : Option Machine :=
  if c.di + 24 ≤ stack then
    let m := store c.mem (c.di + 20) 1 4
    some { c with mem := if a.carry then m else putEntry m c.di a }
  else none

/-- From `next` to `skip`. -/
def next (c : Machine) : Machine :=
  if load c.mem (c.di + 8) 4 ||| load c.mem (c.di + 12) 4 = 0 then c
  else { c with bp := (c.bp + 1) % 2 ^ 16, di := (c.di + 24) % 2 ^ 16 }

/-- `loopp`, and whether the code goes on to `search`. -/
def loopp (c : Machine) (a : Answer) : Bool × Machine :=
  if a.cx = 0 then (decide (a.ebx ≠ 0), c)
  -- the byte is tested for entries that are not ignored, and `je end` is taken for the others
  else if 20 < a.ecx ∧ (c.mem (c.di + 20)).toNat % 2 = 0 then (false, c)
  else (decide (a.ebx ≠ 0), next c)

/-- `end`. -/
def finish (c : Machine) : Machine := { c with mem := store c.mem mmapEnt c.bp 2 }

/-- `search`: the carry flag that is returned, and the machine. -/
def search (stack : Nat) (c : Machine) : List Answer → Option (Bool × Machine)
  | [] => none
  | a :: answers =>
      (int15 stack c a).bind fun c₁ =>
        if a.carry ∨ a.eax ≠ smap then some (true, c₁)
        else
          let r := loopp c₁ a
          if r.1 then search stack r.2 answers else some (false, finish r.2)

def doE820 (stack : Nat) (m : Mem) : List Answer → Option (Bool × Machine)
  | [] => none
  | a :: answers =>
      (int15 stack { mem := m, di := mapStart, bp := 0 } a).bind fun c₁ =>
        if a.carry then some (true, c₁)
        -- `test` overwrites the flags of `cmp eax, edx`
        else if a.ebx = 0 then some (true, c₁)
        else
          let r := loopp c₁ a
          if r.1 then search stack r.2 answers else some (false, finish r.2)

/-! ## What the BIOS answers -/

/-- An answer with an entry. -/
structure Answer.Entry (a : Answer) : Prop where
  carry : a.carry = false
  eax : a.eax = smap
  size : a.cx = 20 ∨ a.cx = 24
  base : a.entry.base < 2 ^ 64
  length : a.entry.length < 2 ^ 64
  type : a.entry.type < 2 ^ 32
  acpi : a.entry.acpi < 2 ^ 32

/-- The answers after one that has not been the last. -/
inductive Rest : List Answer → Prop
  | last {a : Answer} : a.Entry → a.ebx = 0 → Rest [a]
  | carry {a : Answer} : a.carry = true → Rest [a]
  | more {a : Answer} {answers : List Answer} :
      a.Entry → a.ebx ≠ 0 → Rest answers → Rest (a :: answers)

/-- Two or more answers. -/
inductive Sequence : List Answer → Prop
  | mk {a : Answer} {answers : List Answer} :
      a.Entry → a.ebx ≠ 0 → Rest answers → Sequence (a :: answers)

/-- Bit 0 of the long form is clear. -/
def Answer.Ignored (a : Answer) : Prop := a.cx = 24 ∧ a.entry.acpi % 2 = 0

instance (a : Answer) : Decidable a.Ignored := inferInstanceAs (Decidable (_ ∧ _))

/-- The entry as it stands in the table: the `1` stored beforehand takes the
place that the short form leaves out. -/
def Answer.map (a : Answer) : MemoryMap :=
  if a.cx = 24 then a.entry else { a.entry with acpi := 1 }

/-- The entry belongs in the table. -/
def Answer.Kept (a : Answer) : Prop := a.carry = false ∧ a.entry.length ≠ 0 ∧ ¬a.Ignored

instance (a : Answer) : Decidable a.Kept := inferInstanceAs (Decidable (_ ∧ _))

/-- The table for the answers. -/
def wanted (answers : List Answer) : List MemoryMap :=
  (answers.filter fun a => a.Kept).map Answer.map

/-- `do_e820` succeeds and leaves the table. -/
def Complete (stack : Nat) (m : Mem) (answers : List Answer) : Prop :=
  ∃ c, doE820 stack m answers = some (false, c) ∧ (bootTable c.mem).entries = wanted answers

/-! ## When it does -/

/-- The answers up to the first ignored entry: `do_e820` asks for no other. -/
def read : List Answer → List Answer
  | [] => []
  | a :: answers => if a.Ignored then [a] else a :: read answers

/-- The answers after it. -/
def unread : List Answer → List Answer
  | [] => []
  | a :: answers => if a.Ignored then answers else unread answers

/-- The loop comes to its end: with an entry, and below the stack. -/
structure Ended (stack n : Nat) (answers : List Answer) : Prop where
  carry : ∀ a ∈ read answers, a.carry = false
  room : mapStart + 24 * (n + (wanted (read answers).dropLast).length + 1) ≤ stack

/-- No entry that belongs in the table comes after one that is ignored. -/
structure Served (stack : Nat) (answers : List Answer) : Prop where
  ended : Ended stack 0 answers
  unread : ∀ a ∈ unread answers, ¬a.Kept

instance (stack n : Nat) (answers : List Answer) : Decidable (Ended stack n answers) :=
  decidable_of_iff ((∀ a ∈ read answers, a.carry = false) ∧
      mapStart + 24 * (n + (wanted (read answers).dropLast).length + 1) ≤ stack)
    ⟨fun ⟨hCarry, hRoom⟩ => ⟨hCarry, hRoom⟩, fun ⟨hCarry, hRoom⟩ => ⟨hCarry, hRoom⟩⟩

instance (stack : Nat) (answers : List Answer) : Decidable (Served stack answers) :=
  decidable_of_iff (Ended stack 0 answers ∧ ∀ a ∈ unread answers, ¬a.Kept)
    ⟨fun ⟨hEnded, hUnread⟩ => ⟨hEnded, hUnread⟩, fun ⟨hEnded, hUnread⟩ => ⟨hEnded, hUnread⟩⟩

/-! ## Memory -/

theorem entryAt_congr {m m' : Mem} {p : Nat} (h : ∀ x, p ≤ x → x < p + 24 → m' x = m x) :
    entryAt m' p = entryAt m p := by
  have hLoad (d n : Nat) (hIn : d + n ≤ 24) : load m' (p + d) n = load m (p + d) n :=
    load_congr fun x hLow hHigh => h x (by omega) (by omega)
  have hBase := hLoad 0 8 (by decide)
  have hLength := hLoad 8 8 (by decide)
  have hType := hLoad 16 4 (by decide)
  have hAcpi := hLoad 20 4 (by decide)
  rw [Nat.add_zero] at hBase
  simp only [entryAt, hBase, hLength, hType, hAcpi]

theorem putEntry_apart {m : Mem} {p x : Nat} (a : Answer) (h : x < p ∨ p + 24 ≤ x) :
    putEntry m p a x = m x := by
  simp only [putEntry]
  split
  · rw [store_apply_apart (by omega), store_apply_apart (by omega),
      store_apply_apart (by omega), store_apply_apart (by omega)]
  · rw [store_apply_apart (by omega), store_apply_apart (by omega),
      store_apply_apart (by omega)]

theorem map_long {a : Answer} (h : a.cx = 24) : a.map = a.entry := if_pos h

theorem map_short {a : Answer} (h : a.cx ≠ 24) : a.map = { a.entry with acpi := 1 } := if_neg h

/-- The entry reads back; the `acpi` of a short one is what was there. -/
theorem putEntry_entryAt {m : Mem} {p : Nat} {a : Answer} (h : a.Entry)
    (hPreset : load m (p + 20) 4 = 1) : entryAt (putEntry m p a) p = a.map := by
  have hBase : a.entry.base < 256 ^ 8 := h.base
  have hLength : a.entry.length < 256 ^ 8 := h.length
  have hType : a.entry.type < 256 ^ 4 := h.type
  have hAcpi : a.entry.acpi < 256 ^ 4 := h.acpi
  unfold entryAt putEntry
  by_cases hLong : a.cx = 24
  · rw [map_long hLong, if_pos hLong]
    refine (MemoryMap.mk.injEq ..).mpr ⟨?_, ?_, ?_, ?_⟩
    · rw [load_store_apart (by omega), load_store_apart (by omega), load_store_apart (by omega),
        load_store_self hBase]
    · rw [load_store_apart (by omega), load_store_apart (by omega), load_store_self hLength]
    · rw [load_store_apart (by omega), load_store_self hType]
    · rw [load_store_self hAcpi]
  · rw [map_short hLong, if_neg hLong]
    refine (MemoryMap.mk.injEq ..).mpr ⟨?_, ?_, ?_, ?_⟩
    · rw [load_store_apart (by omega), load_store_apart (by omega), load_store_self hBase]
    · rw [load_store_apart (by omega), load_store_self hLength]
    · rw [load_store_self hType]
    · rw [load_store_apart (by omega), load_store_apart (by omega), load_store_apart (by omega),
        hPreset]

/-- The test of the two halves of the length. -/
theorem length_eq_zero (m : Mem) (p : Nat) :
    load m (p + 8) 4 ||| load m (p + 12) 4 = 0 ↔ (entryAt m p).length = 0 := by
  have hWord : (entryAt m p).length = load m (p + 8) 4 + 256 ^ 4 * load m (p + 12) 4 :=
    load_add m 4 4 (p + 8)
  rw [hWord, Nat.or_eq_zero_iff]
  omega

/-- The test of bit 0. -/
theorem bit_eq (m : Mem) (p : Nat) : (m (p + 20)).toNat % 2 = (entryAt m p).acpi % 2 := by
  simp only [entryAt, load]
  omega

/-! ## One answer -/

/-- The entries `es` stand in the table, and `di` and `bp` behind them. -/
structure Filled (c : Machine) (es : List MemoryMap) : Prop where
  bp : c.bp = es.length
  di : c.di = mapStart + 24 * es.length
  cells : Spells (fun k => entryAt c.mem (mapStart + 24 * k)) 0 es

/-- What is stored from `di` on leaves the table as it is. -/
theorem Filled.frame {c : Machine} {es : List MemoryMap} (h : Filled c es) {m : Mem}
    (hSame : ∀ x, x < c.di → m x = c.mem x) : Filled { c with mem := m } es where
  bp := h.bp
  di := h.di
  cells := h.cells.frame fun k _ hk => entryAt_congr fun x _ hx => hSame x (by
    have hDi := h.di
    omega)

theorem Filled.append {c : Machine} {es : List MemoryMap} (h : Filled c es)
    (hRoom : mapStart + 24 * (es.length + 1) < 2 ^ 16) :
    Filled { c with bp := (c.bp + 1) % 2 ^ 16, di := (c.di + 24) % 2 ^ 16 }
      (es ++ [entryAt c.mem c.di]) := by
  have hBp := h.bp
  have hDi := h.di
  constructor
  · simp only [List.length_append, List.length_singleton]
    omega
  · simp only [List.length_append, List.length_singleton]
    omega
  · rw [spells_append, spells_cons]
    refine ⟨h.cells, ?_, trivial⟩
    rw [Nat.zero_add, hDi]

section

variable {stack : Nat} {c : Machine} {es : List MemoryMap} {a : Answer}

theorem int15_filled (h : Filled c es) (hRoom : mapStart + 24 * (es.length + 1) ≤ stack)
    (a : Answer) : ∃ c₁, int15 stack c a = some c₁ ∧ Filled c₁ es ∧
      (a.Entry → entryAt c₁.mem c₁.di = a.map) := by
  have hDi := h.di
  unfold int15
  rw [if_pos (by omega)]
  refine ⟨_, rfl, h.frame fun x hx => ?_, fun hEntry => ?_⟩
  · split
    · exact store_apply_apart (by omega)
    · rw [putEntry_apart a (by omega), store_apply_apart (by omega)]
  · simp only [hEntry.carry, Bool.false_eq_true, if_false]
    exact putEntry_entryAt hEntry (load_store_self (by decide))

theorem int15_none (h : Filled c es) (hRoom : ¬mapStart + 24 * (es.length + 1) ≤ stack)
    (a : Answer) : int15 stack c a = none := by
  have hDi := h.di
  unfold int15
  rw [if_neg (by omega)]

theorem wanted_cons (a : Answer) (answers : List Answer) :
    wanted (a :: answers) = wanted [a] ++ wanted answers := by
  unfold wanted
  rw [← List.map_append, ← List.filter_append, List.singleton_append]

theorem wanted_singleton (a : Answer) : wanted [a] = if a.Kept then [a.map] else [] := by
  by_cases hKept : a.Kept
  · simp [wanted, hKept]
  · simp [wanted, hKept]

theorem map_length (a : Answer) : a.map.length = a.entry.length := by
  unfold Answer.map
  split
  · rfl
  · rfl

theorem next_filled (h : Filled c es) (hRoom : mapStart + 24 * (es.length + 1) < 2 ^ 16)
    (hEntry : a.Entry) (hAt : entryAt c.mem c.di = a.map) (hIgnored : ¬a.Ignored) :
    Filled (next c) (es ++ wanted [a]) := by
  have hLength := length_eq_zero c.mem c.di
  rw [hAt, map_length] at hLength
  rw [wanted_singleton, next]
  by_cases hZero : a.entry.length = 0
  · rw [if_pos (hLength.mpr hZero), if_neg (fun hKept : a.Kept => hKept.2.1 hZero),
      List.append_nil]
    exact h
  · rw [if_neg (fun hOr => hZero (hLength.mp hOr)), if_pos ⟨hEntry.carry, hZero, hIgnored⟩, ← hAt]
    exact h.append hRoom

/-- **One answer.**  The entry is kept if it belongs in the table, and the code
goes on after an entry that is not ignored and not the last. -/
theorem loopp_filled (h : Filled c es) (hRoom : mapStart + 24 * (es.length + 1) < 2 ^ 16)
    (hEntry : a.Entry) (hAt : entryAt c.mem c.di = a.map) :
    ∃ c₁, loopp c a = (decide (¬a.Ignored ∧ a.ebx ≠ 0), c₁) ∧ Filled c₁ (es ++ wanted [a]) := by
  have hSome : a.cx ≠ 0 := by
    rcases hEntry.size with hShort | hLong
    · omega
    · omega
  have hBit := bit_eq c.mem c.di
  rw [hAt] at hBit
  rw [loopp, if_neg hSome]
  by_cases hIgnored : a.Ignored
  · have hLong : 20 < a.ecx := by
      have hLe : a.cx ≤ a.ecx := Nat.mod_le _ _
      have hCx := hIgnored.1
      omega
    rw [Answer.map, if_pos hIgnored.1] at hBit
    rw [if_pos ⟨hLong, hBit.trans hIgnored.2⟩, wanted_singleton,
      if_neg (fun hKept : a.Kept => hKept.2.2 hIgnored), List.append_nil]
    exact ⟨c, by simp [hIgnored], h⟩
  · have hOn : ¬(20 < a.ecx ∧ (c.mem (c.di + 20)).toNat % 2 = 0) := by
      rintro ⟨-, hClear⟩
      rw [hBit] at hClear
      by_cases hLong : a.cx = 24
      · rw [Answer.map, if_pos hLong] at hClear
        exact hIgnored ⟨hLong, hClear⟩
      · rw [Answer.map, if_neg hLong] at hClear
        simp at hClear
    rw [if_neg hOn]
    exact ⟨next c, by simp [hIgnored], next_filled h hRoom hEntry hAt hIgnored⟩

theorem finish_entries (h : Filled c es) (hRoom : mapStart + 24 * es.length < 2 ^ 16) :
    (bootTable (finish c).mem).entries = es := by
  rw [Table.entries_eq_iff]
  have hBp := h.bp
  constructor
  · simp only [bootTable, finish]
    rw [load_store_self (by omega), hBp]
  · refine h.cells.frame fun k _ _ => entryAt_congr fun x hx _ => ?_
    simp only [finish]
    refine store_apply_apart (Or.inr ?_)
    unfold mapStart at hx
    unfold mmapEnt
    omega

end

/-! ## The loop -/

theorem Rest.ne_nil {answers : List Answer} (h : Rest answers) : answers ≠ [] := by
  cases h <;> simp

theorem read_ne_nil {answers : List Answer} (h : answers ≠ []) : read answers ≠ [] := by
  cases answers with
  | nil => exact absurd rfl h
  | cons a answers =>
      unfold read
      split <;> simp

theorem Ended.here {stack n : Nat} {answers : List Answer} (h : Ended stack n answers) :
    mapStart + 24 * (n + 1) ≤ stack := by
  have hRoom := h.room
  omega

/-- After an answer that is not the last one asked for. -/
theorem ended_cons {stack n : Nat} {a : Answer} {answers : List Answer} (hCarry : a.carry = false)
    (hIgnored : ¬a.Ignored) (hSome : answers ≠ []) :
    Ended stack n (a :: answers) ↔ Ended stack (n + (wanted [a]).length) answers := by
  have hRead : read (a :: answers) = a :: read answers := if_neg hIgnored
  have hLast : (read (a :: answers)).dropLast = a :: (read answers).dropLast := by
    rw [hRead, List.dropLast_cons_of_ne_nil (read_ne_nil hSome)]
  have hCount : (wanted (read (a :: answers)).dropLast).length =
      (wanted [a]).length + (wanted (read answers).dropLast).length := by
    rw [hLast, wanted_cons, List.length_append]
  constructor
  · rintro ⟨hAll, hRoom⟩
    rw [hRead] at hAll
    rw [hCount] at hRoom
    exact ⟨fun b hb => hAll b (List.mem_cons_of_mem a hb), by omega⟩
  · rintro ⟨hAll, hRoom⟩
    refine ⟨?_, ?_⟩
    · rw [hRead]
      exact List.forall_mem_cons.mpr ⟨hCarry, hAll⟩
    · rw [hCount]
      omega

/-- After the last one. -/
theorem ended_singleton {stack n : Nat} {a : Answer} {answers : List Answer}
    (hCarry : a.carry = false) (hRead : read (a :: answers) = [a]) :
    Ended stack n (a :: answers) ↔ mapStart + 24 * (n + 1) ≤ stack := by
  refine ⟨Ended.here, fun hRoom => ⟨?_, ?_⟩⟩
  · rw [hRead]
    exact List.forall_mem_cons.mpr ⟨hCarry, fun _ hb => absurd hb List.not_mem_nil⟩
  · rw [hRead]
    exact hRoom

/-- What there is to show of a run of the loop. -/
structure Runs (stack : Nat) (es : List MemoryMap) (answers : List Answer)
    (result : Option (Bool × Machine)) : Prop where
  table : Ended stack es.length answers → ∃ c, result = some (false, c) ∧
    (bootTable c.mem).entries = es ++ wanted (read answers)
  ended : ∀ c, result = some (false, c) → Ended stack es.length answers

/-- **The loop** keeps the entries that it reads, or does not come to its end. -/
theorem search_runs {stack : Nat} (hStack : stack ≤ 0x7C00) {answers : List Answer}
    (h : Rest answers) : ∀ {c : Machine} {es : List MemoryMap}, Filled c es →
      Runs stack es answers (search stack c answers) := by
  induction h with
  | @last a hEntry hZero =>
      intro c es hFilled
      have hRead : read [a] = [a] := by
        unfold read
        split <;> rfl
      have hEnded : Ended stack es.length [a] ↔ mapStart + 24 * (es.length + 1) ≤ stack :=
        ended_singleton hEntry.carry hRead
      by_cases hRoom : mapStart + 24 * (es.length + 1) ≤ stack
      · refine ⟨fun _ => ?_, fun _ _ => hEnded.mpr hRoom⟩
        obtain ⟨c₁, hInt, hFilled₁, hAt⟩ := int15_filled hFilled hRoom a
        obtain ⟨c₂, hLoopp, hFilled₂⟩ := loopp_filled hFilled₁ (by omega) hEntry (hAt hEntry)
        refine ⟨finish c₂, ?_, ?_⟩
        · simp [search, hInt, hEntry.carry, hEntry.eax, hLoopp, hZero]
        · have hOne : (wanted [a]).length ≤ 1 := by
            rw [wanted_singleton]
            split <;> simp
          rw [hRead]
          refine finish_entries hFilled₂ ?_
          rw [List.length_append]
          omega
      · refine ⟨fun hEnd => absurd (hEnded.mp hEnd) hRoom, fun c' hRun => ?_⟩
        simp [search, int15_none hFilled hRoom] at hRun
  | @carry a hCarry =>
      intro c es hFilled
      refine ⟨fun hEnd => ?_, fun c' hRun => ?_⟩
      · have hFalse := hEnd.carry a (by unfold read; split <;> simp)
        rw [hCarry] at hFalse
        cases hFalse
      · rw [search] at hRun
        cases hInt : int15 stack c a with
        | none => simp [hInt] at hRun
        | some c₁ => simp [hInt, hCarry] at hRun
  | @more a answers hEntry hMore hRest ih =>
      intro c es hFilled
      by_cases hRoom : mapStart + 24 * (es.length + 1) ≤ stack
      · obtain ⟨c₁, hInt, hFilled₁, hAt⟩ := int15_filled hFilled hRoom a
        obtain ⟨c₂, hLoopp, hFilled₂⟩ := loopp_filled hFilled₁ (by omega) hEntry (hAt hEntry)
        by_cases hIgnored : a.Ignored
        · have hRead : read (a :: answers) = [a] := if_pos hIgnored
          have hNone : wanted [a] = [] := by
            rw [wanted_singleton, if_neg fun hKept : a.Kept => hKept.2.2 hIgnored]
          refine ⟨fun _ => ⟨finish c₂, ?_, ?_⟩, fun _ _ =>
            (ended_singleton hEntry.carry hRead).mpr hRoom⟩
          · simp [search, hInt, hEntry.carry, hEntry.eax, hLoopp, hIgnored]
          · rw [hRead]
            refine finish_entries hFilled₂ ?_
            rw [hNone, List.append_nil]
            omega
        · have hOn : search stack c (a :: answers) = search stack c₂ answers := by
            simp [search, hInt, hEntry.carry, hEntry.eax, hLoopp, hIgnored, hMore]
          have hEnded : Ended stack es.length (a :: answers) ↔
              Ended stack (es ++ wanted [a]).length answers := by
            rw [List.length_append]
            exact ended_cons hEntry.carry hIgnored hRest.ne_nil
          obtain ⟨hTable, hEnd⟩ := ih hFilled₂
          rw [← hOn] at hTable hEnd
          refine ⟨fun hAll => ?_, fun c' hRun => hEnded.mpr (hEnd c' hRun)⟩
          obtain ⟨c', hRun, hEntries⟩ := hTable (hEnded.mp hAll)
          refine ⟨c', hRun, ?_⟩
          rw [hEntries, show read (a :: answers) = a :: read answers from if_neg hIgnored,
            wanted_cons a (read answers), List.append_assoc]
      · refine ⟨fun hEnd => absurd hEnd.here hRoom, fun c' hRun => ?_⟩
        simp [search, int15_none hFilled hRoom] at hRun

/-- The first answer is taken as the others are. -/
theorem doE820_eq_search (stack : Nat) (m : Mem) {a : Answer} (answers : List Answer)
    (hEntry : a.Entry) (hMore : a.ebx ≠ 0) :
    doE820 stack m (a :: answers) =
      search stack { mem := m, di := mapStart, bp := 0 } (a :: answers) := by
  simp [doE820, search, hEntry.carry, hEntry.eax, hMore]

theorem wanted_read_unread (answers : List Answer) :
    wanted answers = wanted (read answers) ++ wanted (unread answers) := by
  induction answers with
  | nil => rfl
  | cons a answers ih =>
      unfold read unread
      split
      · exact wanted_cons a answers
      · rw [wanted_cons a, ih, wanted_cons a (read answers), List.append_assoc]

theorem wanted_eq_nil {answers : List Answer} :
    wanted answers = [] ↔ ∀ a ∈ answers, ¬a.Kept := by
  simp [wanted, List.filter_eq_nil_iff]

/-- **`do_e820`** leaves the table of all entries if no entry that belongs in it
comes after an ignored one, no carry flag ends the answers that it asks for, and
the table fits below the stack; and only then. -/
theorem doE820_complete {stack : Nat} (hStack : stack ≤ 0x7C00) (m : Mem)
    {answers : List Answer} (h : Sequence answers) :
    Complete stack m answers ↔ Served stack answers := by
  obtain ⟨hEntry, hMore, hRest⟩ := h
  next a answers =>
  have hFilled : Filled { mem := m, di := mapStart, bp := 0 } [] := ⟨rfl, rfl, trivial⟩
  obtain ⟨hTable, hEnded⟩ := search_runs hStack (Rest.more hEntry hMore hRest) hFilled
  rw [← doE820_eq_search stack m answers hEntry hMore] at hTable hEnded
  have hSplit := wanted_read_unread (a :: answers)
  constructor
  · rintro ⟨c, hRun, hEntries⟩
    obtain ⟨c', hRun', hEntries'⟩ := hTable (hEnded c hRun)
    obtain rfl : c = c' := by
      rw [hRun] at hRun'
      exact congrArg Prod.snd (Option.some.inj hRun')
    refine ⟨hEnded c hRun, wanted_eq_nil.mp ?_⟩
    rw [hEntries, hSplit, List.nil_append] at hEntries'
    exact List.append_right_eq_self.mp hEntries'
  · rintro ⟨hEnd, hUnread⟩
    obtain ⟨c, hRun, hEntries⟩ := hTable hEnd
    refine ⟨c, hRun, ?_⟩
    rw [hEntries, hSplit, wanted_eq_nil.mpr hUnread, List.append_nil, List.nil_append]

/-- Conventional memory, an empty entry and memory above 1 MiB. -/
def plain : List Answer :=
  [ { carry := false, eax := smap, ebx := 1, ecx := 24,
      entry := { base := 0, length := 0x9FC00, type := 1, acpi := 1 } },
    { carry := false, eax := smap, ebx := 2, ecx := 20,
      entry := { base := 0xE0000, length := 0, type := 2, acpi := 0 } },
    { carry := false, eax := smap, ebx := 0, ecx := 20,
      entry := { base := 0x100000, length := 0x7EE0000, type := 1, acpi := 0 } } ]

theorem doE820_complete_plain :
    Complete 0x7000 (fun _ => 0) plain ∧ (wanted plain).map MemoryMap.base = [0, 0x100000] := by
  have hSequence : Sequence plain :=
    .mk (by constructor <;> decide) (by decide)
      (.more (by constructor <;> decide) (by decide)
        (.last (by constructor <;> decide) (by decide)))
  exact ⟨(doE820_complete (by decide) (fun _ => 0) hSequence).mpr (by decide), by decide⟩

/-- The entry in the middle is marked ignored. -/
def masked : List Answer :=
  [ { carry := false, eax := smap, ebx := 1, ecx := 24,
      entry := { base := 0, length := 0x9FC00, type := 1, acpi := 1 } },
    { carry := false, eax := smap, ebx := 2, ecx := 24,
      entry := { base := 0xE0000, length := 0x20000, type := 2, acpi := 0 } },
    { carry := false, eax := smap, ebx := 0, ecx := 24,
      entry := { base := 0x100000, length := 0x7EE0000, type := 1, acpi := 1 } } ]

/-- The memory above 1 MiB is missing from the table. -/
theorem ignored_ends :
    Sequence masked ∧ (wanted masked).map MemoryMap.base = [0, 0x100000] ∧
      (∃ r, doE820 0x7000 (fun _ => 0) masked = some r ∧
        (bootTable r.2.mem).entries.map MemoryMap.base = [0]) ∧
      ¬Complete 0x7000 (fun _ => 0) masked := by
  have hSequence : Sequence masked :=
    .mk (by constructor <;> decide) (by decide)
      (.more (by constructor <;> decide) (by decide)
        (.last (by constructor <;> decide) (by decide)))
  have hBases : (doE820 0x7000 (fun _ => 0) masked).map
      (fun r => (bootTable r.2.mem).entries.map MemoryMap.base) = some [0] := by decide +kernel
  obtain ⟨r, hRun, hOne⟩ := Option.map_eq_some_iff.mp hBases
  refine ⟨hSequence, by decide, ⟨r, hRun, hOne⟩, ?_⟩
  rintro ⟨c, hEnds, hTable⟩
  rw [hRun] at hEnds
  obtain rfl := Option.some.inj hEnds
  rw [hTable] at hOne
  exact absurd hOne (by decide)

end MiniKernel.Ports.BootMap

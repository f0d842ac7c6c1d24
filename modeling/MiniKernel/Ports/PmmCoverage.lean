import MiniKernel.Ports.PmmOwnership

/-!
# The memory map never loses or gains an address

`allocate` and `free` cut and merge entries in place, with 64-bit sums and
with index arithmetic around the entry they work on.  Two things are proved
for every run, whatever addresses `free` is given.

`Intact` says that the entries still cut up the addresses of the boot map:
none is empty, no two overlap, together they describe the same addresses, and
their order and the size of the table are kept.

The second part translates both functions once more, with every index checked
against the room the table has.  The checked functions never fail and agree
with the plain ones, so no cell at or above `maxFreePages` is read or written.
-/

namespace MiniKernel.Ports.PmmCoverage

open MiniKernel.Verified.Extents
open MiniKernel.Verified.Trace
open MiniKernel.Ports.Pmm
open MiniKernel.Ports.PmmOwnership (extentOf Call glue_length has_join)

/-- Some entry describes the address. -/
def Covers (es : List MemoryMap) (x : Nat) : Prop := ∃ e ∈ es, (extentOf e).Has x

/-- The entries are ordered by their bases. -/
abbrev Ascending (es : List MemoryMap) : Prop := es.Pairwise fun a b => a.base ≤ b.base

/-- The entries `es` cut up the addresses of `boot`. -/
structure Intact (boot es : List MemoryMap) : Prop where
  nonempty : ∀ e ∈ es, 0 < e.length
  noWrap : ∀ e ∈ es, e.base + e.length < 2 ^ 64
  apart : PairwiseApart extentOf es
  ascending : Ascending boot → Ascending es
  covers : ∀ x, Covers es x ↔ Covers boot x
  room : es.length ≤ maxFreePages

variable {boot pre post mid mid' es es' : List MemoryMap}

/-! ## Replacing entries -/

theorem covers_append {x : Nat} :
    Covers (pre ++ mid ++ post) x ↔ Covers pre x ∨ Covers mid x ∨ Covers post x := by
  simp only [Covers, List.mem_append]
  constructor
  · rintro ⟨e, (he | he) | he, hx⟩
    · exact Or.inl ⟨e, he, hx⟩
    · exact Or.inr (Or.inl ⟨e, he, hx⟩)
    · exact Or.inr (Or.inr ⟨e, he, hx⟩)
  · rintro (⟨e, he, hx⟩ | ⟨e, he, hx⟩ | ⟨e, he, hx⟩)
    · exact ⟨e, Or.inl (Or.inl he), hx⟩
    · exact ⟨e, Or.inl (Or.inr he), hx⟩
    · exact ⟨e, Or.inr he, hx⟩

/-- The entries `mid'` cut up the addresses of `mid`, in ascending order and
not below the first of them. -/
structure Recut (mid mid' : List MemoryMap) : Prop where
  nonempty : ∀ e ∈ mid', 0 < e.length
  noWrap : ∀ e ∈ mid', e.base + e.length < 2 ^ 64
  apart : PairwiseApart extentOf mid'
  ascending : Ascending mid'
  covers : ∀ x, Covers mid' x ↔ Covers mid x
  low : ∀ e ∈ mid', ∃ d ∈ mid, d.base ≤ e.base
  high : ∀ e ∈ mid', ∃ d ∈ mid, e.base < d.base + d.length

/-- **Replacement.**  Entries may be cut up again where they stand. -/
theorem Intact.replace (h : Intact boot (pre ++ mid ++ post)) (hRecut : Recut mid mid')
    (hRoom : (pre ++ mid' ++ post).length ≤ maxFreePages) :
    Intact boot (pre ++ mid' ++ post) where
  nonempty e he := by
    simp only [List.mem_append] at he
    rcases he with (he | he) | he
    · exact h.nonempty e (by simp [he])
    · exact hRecut.nonempty e he
    · exact h.nonempty e (by simp [he])
  noWrap e he := by
    simp only [List.mem_append] at he
    rcases he with (he | he) | he
    · exact h.noWrap e (by simp [he])
    · exact hRecut.noWrap e he
    · exact h.noWrap e (by simp [he])
  apart := pairwise_apart_replace mid h.apart hRecut.apart fun e he x hx =>
    (hRecut.covers x).mp ⟨e, he, hx⟩
  ascending hBoot := by
    have hOld := h.ascending hBoot
    rw [Ascending, List.append_assoc, List.pairwise_append, List.pairwise_append] at hOld ⊢
    obtain ⟨hPre, ⟨-, hPost, hMidPost⟩, hCross⟩ := hOld
    refine ⟨hPre, ⟨hRecut.ascending, hPost, fun e he b hb => ?_⟩, fun a ha b hb => ?_⟩
    · -- what follows is apart from the replaced entries, so it begins behind them
      obtain ⟨d, hd, hBelow⟩ := hRecut.high e he
      have hOrder := hMidPost d hd b hb
      have hApart : (extentOf d).Apart (extentOf b) := by
        have hAll := h.apart
        rw [PairwiseApart, List.append_assoc, List.pairwise_append, List.pairwise_append] at hAll
        exact hAll.2.1.2.2 d hd b hb
      have hSide := hApart.le (h.nonempty d (by simp [hd])) (h.nonempty b (by simp [hb]))
      simp only [extentOf] at hSide
      have hLength := h.nonempty b (by simp [hb])
      omega
    · rcases List.mem_append.mp hb with hb | hb
      · obtain ⟨d, hd, hAbove⟩ := hRecut.low b hb
        exact Nat.le_trans (hCross a ha d (by simp [hd])) hAbove
      · exact hCross a ha b (by simp [hb])
  covers x := by
    rw [← h.covers x, covers_append, covers_append, hRecut.covers x]
  room := hRoom

theorem covers_singleton {e : MemoryMap} {x : Nat} : Covers [e] x ↔ (extentOf e).Has x := by
  simp [Covers]

/-- An entry that changes its type only. -/
theorem recut_retype {e d : MemoryMap} (hLength : 0 < e.length)
    (hWrap : e.base + e.length < 2 ^ 64) (hBase : d.base = e.base)
    (hSame : d.length = e.length) : Recut [e] [d] where
  nonempty := by simpa [hSame] using hLength
  noWrap := by simpa [hBase, hSame] using hWrap
  apart := List.pairwise_singleton _ _
  ascending := List.pairwise_singleton _ _
  covers x := by
    rw [covers_singleton, covers_singleton]
    simp only [extentOf, Extent.Has, hBase, hSame]
  low := by simp [hBase]
  high := by
    simp only [List.mem_singleton, forall_eq, exists_eq_left, hBase]
    omega

/-- The pieces of a carved entry. -/
theorem recut_pieces {e : MemoryMap} {size : Nat} (hSize : 0 < size) (hFit : size ≤ e.length)
    (hWrap : e.base + e.length < 2 ^ 64) : Recut [e] (e.pieces size) := by
  unfold MemoryMap.pieces
  by_cases hSmall : size < e.length
  · have hRest : (e.base + size) % 2 ^ 64 = e.base + size := Nat.mod_eq_of_lt (by omega)
    rw [if_pos hSmall]
    refine
      { nonempty := ?_
        noWrap := ?_
        apart := ?_
        ascending := ?_
        covers := fun x => ?_
        low := ?_
        high := ?_ }
    · simp only [List.forall_mem_cons, MemoryMap.used, MemoryMap.rest, List.not_mem_nil,
        false_implies, implies_true, and_true]
      omega
    · simp only [List.forall_mem_cons, MemoryMap.used, MemoryMap.rest, hRest, List.not_mem_nil,
        false_implies, implies_true, and_true]
      omega
    · rw [PairwiseApart, List.pairwise_pair]
      apply Extent.apart_of_le
      simp only [extentOf, MemoryMap.used, MemoryMap.rest, hRest]
      exact Or.inl (Nat.le_refl _)
    · rw [Ascending, List.pairwise_pair]
      simp only [MemoryMap.used, MemoryMap.rest, hRest]
      omega
    · simp only [Covers, List.mem_cons, List.not_mem_nil, or_false, exists_eq_or_imp,
        exists_eq_left, extentOf, Extent.Has, MemoryMap.used, MemoryMap.rest, hRest]
      omega
    · intro d hd
      refine ⟨e, by simp, ?_⟩
      rcases List.mem_pair.mp hd with rfl | rfl
      · exact Nat.le_refl _
      · simp only [MemoryMap.rest, hRest]
        omega
    · intro d hd
      refine ⟨e, by simp, ?_⟩
      rcases List.mem_pair.mp hd with rfl | rfl
      · simp only [MemoryMap.used]
        omega
      · simp only [MemoryMap.rest, hRest]
        omega
  · rw [if_neg hSmall]
    exact recut_retype (by omega) hWrap rfl (by simp only [MemoryMap.used]; omega)

/-- Two entries that glue become one. -/
theorem recut_join {l r : MemoryMap} (hGlue : Glue l r) (hl : 0 < l.length) (hr : 0 < r.length)
    (hlWrap : l.base + l.length < 2 ^ 64) (hrWrap : r.base + r.length < 2 ^ 64) :
    Recut [l, r] [l.join r] := by
  obtain ⟨hBase, hLength⟩ := glue_length hGlue hlWrap hrWrap
  refine
    { nonempty := ?_
      noWrap := ?_
      apart := List.pairwise_singleton _ _
      ascending := List.pairwise_singleton _ _
      covers := fun x => ?_
      low := ?_
      high := ?_ }
  · rw [List.forall_mem_singleton, hLength]
    omega
  · rw [List.forall_mem_singleton, hLength, show (l.join r).base = l.base from rfl]
    omega
  · simp only [Covers, List.mem_cons, List.not_mem_nil, or_false, exists_eq_or_imp,
      exists_eq_left, has_join hGlue hlWrap hrWrap]
  · exact fun e he => ⟨l, by simp, by simp [List.mem_singleton.mp he, MemoryMap.join]⟩
  · intro e he
    refine ⟨l, by simp, ?_⟩
    rw [List.mem_singleton.mp he]
    simp only [MemoryMap.join]
    omega

/-! ## The two functions -/

theorem Intact.start (hNonempty : ∀ e ∈ boot, 0 < e.length)
    (hWrap : ∀ e ∈ boot, e.base + e.length < 2 ^ 64) (hApart : PairwiseApart extentOf boot)
    (hRoom : boot.length ≤ maxFreePages) : Intact boot boot where
  nonempty := hNonempty
  noWrap := hWrap
  apart := hApart
  ascending := id
  covers _ := Iff.rfl
  room := hRoom

/-- **`allocate` keeps the map intact.** -/
theorem Intact.allocate {size r : Nat} (h : Intact boot es) (hSize : 0 < size)
    (hAlloc : Allocated size es r es') : Intact boot es' := by
  cases hAlloc with
  | noCandidate => exact h
  | tableFull => exact h
  | @taken pre post e hBest hRoom =>
      obtain ⟨rfl, ⟨-, hFit, -⟩, -, -⟩ := hBest
      have he : e ∈ pre ++ e :: post := by simp
      have hOld : Intact boot (pre ++ [e] ++ post) := by simpa using h
      refine hOld.replace (recut_pieces hSize hFit (h.noWrap e he)) ?_
      have hLength := h.room
      simp only [List.length_append, List.length_cons] at hLength hRoom ⊢
      unfold MemoryMap.pieces
      split
      · next hSmall =>
          have := hRoom hSmall
          simp only [List.length_cons, List.length_nil]
          omega
      · simp only [List.length_cons, List.length_nil]
        omega

/-- **`free` keeps the map intact**, whatever address it is given. -/
theorem Intact.free {p : Nat} (h : Intact boot es) (hFreed : Freed p es es') :
    Intact boot es' := by
  refine hFreed.closure (P := Intact boot) (fun _ => h) ?_ ?_
  · rintro pre e post rfl - -
    have he : e ∈ pre ++ e :: post := by simp
    have hOld : Intact boot (pre ++ [e] ++ post) := by simpa using h
    have hNew := hOld.replace
      (recut_retype (d := e.usable) (h.nonempty e he) (h.noWrap e he) rfl rfl)
      (by simpa using h.room)
    simpa using hNew
  · intro pre l r post hGlue hBoth
    have hl : l ∈ pre ++ l :: r :: post := by simp
    have hr : r ∈ pre ++ l :: r :: post := by simp
    have hOld : Intact boot (pre ++ [l, r] ++ post) := by simpa using hBoth
    have hRoom := hBoth.room
    have hNew := hOld.replace (recut_join hGlue (hBoth.nonempty l hl) (hBoth.nonempty r hr)
      (hBoth.noWrap l hl) (hBoth.noWrap r hr)) (by
        simp only [List.length_append, List.length_cons, List.length_nil] at hRoom ⊢
        omega)
    simpa using hNew

/-! ## Index bounds -/

/-- `map[k]`, where the table has room for it. -/
def cell (map : Nat → MemoryMap) (k : Nat) : Option MemoryMap :=
  if k < maxFreePages then some (map k) else none

/-- `map[k] = e`, where the table has room for it. -/
def putCell (map : Nat → MemoryMap) (k : Nat) (e : MemoryMap) : Option (Nat → MemoryMap) :=
  if k < maxFreePages then some (setMap map k e) else none

/-- One turn of the best-fit loop. -/
def scanChecked (map : Nat → MemoryMap) (size : Nat) (best : Option Nat) (k : Nat) :
    Option (Option Nat) := do
  let e ← cell map k
  if e.base = 0 then some best
  else if size ≤ e.length ∧ e.type = 1 then
    match best with
    | none => some (some k)
    | some b =>
        let shortest ← cell map b
        some (if e.length < shortest.length then some k else some b)
  else some best

/-- The upward shift, from counter `k`. -/
def shiftUpChecked (best : Nat) : Nat → (Nat → MemoryMap) → Option (Nat → MemoryMap)
  | 0, map => some map
  | k + 1, map =>
      if best < k + 1 then do
        let e ← cell map k
        let map ← putCell map (k + 1) e
        shiftUpChecked best k map
      else some map

/-- The downward shift. -/
def shiftDownChecked (index entry : Nat) (map : Nat → MemoryMap) : Option (Nat → MemoryMap) :=
  (List.range' index (entry - 1 - index)).foldlM
    (fun m k => (cell m (k + 1)).bind fun e => putCell m k e) map

/-- `allocate` with every index checked. -/
def allocateChecked (size : Nat) (t : Table) : Option (Nat × Table) := do
  match ← (List.range t.entry).foldlM (scanChecked t.map size) none with
  | none => some (0, t)
  | some best =>
      let e ← cell t.map best
      let remain := e.length - size
      if 0 < remain then
        if maxFreePages ≤ t.entry then some (0, t)
        else
          let map ← shiftUpChecked best t.entry t.map
          let e ← cell map best
          let map ← putCell map (best + 1)
            { base := (e.base + size) % 2 ^ 64, length := remain, type := 1, acpi := e.acpi }
          let e ← cell map best
          let map ← putCell map best { e with length := size, type := 2 }
          let e ← cell map best
          some (e.base % 2 ^ 32, { entry := t.entry + 1, map := map })
      else
        let map ← putCell t.map best { e with length := size, type := 2 }
        let e ← cell map best
        some (e.base % 2 ^ 32, { t with map := map })

/-- The search of `free`: the first of the given indices whose entry is based
at the address. -/
def findChecked (map : Nat → MemoryMap) (p : Nat) : List Nat → Option (Option Nat)
  | [] => some none
  | k :: ks =>
      (cell map k).bind fun e => if e.base = p then some (some k) else findChecked map p ks

/-- The first merge of `free`. -/
def mergeLeftChecked (index : Nat) (t : Table) : Option (Nat × Table) :=
  if 0 < index then do
    let left ← cell t.map (index - 1)
    let here ← cell t.map index
    if left.type = 1 ∧ left.limit = here.base then
      let map ← putCell t.map (index - 1)
        { left with length := (left.length + here.length) % 2 ^ 64 }
      let map ← shiftDownChecked index t.entry map
      some (index - 1, { entry := t.entry - 1, map := map })
    else some (index, t)
  else some (index, t)

/-- The second merge of `free`. -/
def mergeRightChecked (index : Nat) (t : Table) : Option Table :=
  if index + 1 < t.entry then do
    let right ← cell t.map (index + 1)
    let here ← cell t.map index
    if right.type = 1 ∧ here.limit = right.base then
      let map ← putCell t.map index
        { here with length := (here.length + right.length) % 2 ^ 64 }
      let map ← shiftDownChecked (index + 1) t.entry map
      some { entry := t.entry - 1, map := map }
    else some t
  else some t

/-- `free` with every index checked. -/
def freeChecked (physicalAddress : Nat) (t : Table) : Option Table := do
  match ← findChecked t.map physicalAddress (List.range t.entry) with
  | none => some t
  | some index =>
      let e ← cell t.map index
      let map ← putCell t.map index { e with type := 1 }
      let merged ← mergeLeftChecked index { t with map := map }
      mergeRightChecked merged.1 merged.2

theorem cell_eq {k : Nat} (map : Nat → MemoryMap) (h : k < maxFreePages) :
    cell map k = some (map k) := if_pos h

theorem putCell_eq {k : Nat} (map : Nat → MemoryMap) (e : MemoryMap) (h : k < maxFreePages) :
    putCell map k e = some (setMap map k e) := if_pos h

theorem scanChecked_eq {map : Nat → MemoryMap} {size k : Nat} {best : Option Nat}
    (hk : k < maxFreePages) (hBest : ∀ b, best = some b → b < maxFreePages) :
    scanChecked map size best k = some (scanStep map size best k) := by
  unfold scanChecked scanStep
  rw [cell_eq map hk]
  simp only [Option.bind_eq_bind, Option.bind_some]
  split
  · rfl
  · split
    · cases best with
      | none => rfl
      | some b =>
          simp only [cell_eq map (hBest b rfl), Option.bind_some]
    · rfl

/-- The index the search has chosen is one it has seen. -/
theorem scan_lt {map : Nat → MemoryMap} {size n b : Nat}
    (h : (List.range n).foldl (scanStep map size) none = some b) : b < n := by
  have hScan := scan_spec map size n
  rw [h] at hScan
  exact hScan.1

theorem foldlM_scanChecked {map : Nat → MemoryMap} {size n : Nat} (hn : n ≤ maxFreePages) :
    (List.range n).foldlM (scanChecked map size) none =
      some ((List.range n).foldl (scanStep map size) none) := by
  induction n with
  | zero => rfl
  | succ n ih =>
      rw [List.range_succ, List.foldlM_append, ih (by omega), List.foldl_append]
      simp only [Option.bind_eq_bind, Option.bind_some, List.foldlM_cons, List.foldlM_nil,
        List.foldl_cons, List.foldl_nil]
      rw [scanChecked_eq (by omega) fun b hb => Nat.lt_of_lt_of_le (scan_lt hb) (by omega)]
      rfl

theorem shiftUpChecked_eq {best n : Nat} (hn : n < maxFreePages) (map : Nat → MemoryMap) :
    shiftUpChecked best n map = some (shiftUp best n map) := by
  induction n generalizing map with
  | zero => rfl
  | succ n ih =>
      unfold shiftUpChecked shiftUp
      rw [cell_eq map (by omega), Option.bind_eq_bind, Option.bind_some, putCell_eq _ _ hn]
      simp only [Option.bind_eq_bind, Option.bind_some, ih (by omega)]
      split
      · rfl
      · rfl

theorem shiftDownChecked_eq {index entry : Nat} (hEntry : entry ≤ maxFreePages)
    (map : Nat → MemoryMap) : shiftDownChecked index entry map = some (shiftDown index entry map) := by
  have hLoop : ∀ n, index + n + 1 ≤ entry ∨ n = 0 → (List.range' index n).foldlM
      (fun m k => (cell m (k + 1)).bind fun e => putCell m k e) map =
        some ((List.range' index n).foldl (fun m k => setMap m k (m (k + 1))) map) := by
    intro n
    induction n with
    | zero => exact fun _ => rfl
    | succ n ih =>
        intro hn
        rw [List.range'_1_concat, List.foldlM_append, ih (by omega), List.foldl_append]
        simp only [Option.bind_eq_bind, Option.bind_some, List.foldlM_cons, List.foldlM_nil,
          List.foldl_cons, List.foldl_nil]
        rw [cell_eq _ (by omega), Option.bind_some, putCell_eq _ _ (by omega)]
        rfl
  unfold shiftDownChecked shiftDown
  exact hLoop _ (by omega)

theorem findChecked_eq {map : Nat → MemoryMap} {p : Nat} {ks : List Nat}
    (hks : ∀ k ∈ ks, k < maxFreePages) :
    findChecked map p ks = some (ks.find? fun k => (map k).base == p) := by
  induction ks with
  | nil => rfl
  | cons k ks ih =>
      rw [findChecked, cell_eq map (hks k (by simp)), Option.bind_some, List.find?_cons,
        ih fun j hj => hks j (List.mem_cons_of_mem _ hj)]
      by_cases hBase : (map k).base = p
      · rw [if_pos hBase, beq_iff_eq.mpr hBase]
      · rw [if_neg hBase, beq_eq_false_iff_ne.mpr hBase]

theorem mergeLeftChecked_eq {index : Nat} {t : Table} (hIndex : index < t.entry)
    (hRoom : t.entry ≤ maxFreePages) :
    mergeLeftChecked index t = some (mergeLeft index t) := by
  unfold mergeLeftChecked mergeLeft
  by_cases hFirst : 0 < index
  · rw [if_pos hFirst, cell_eq _ (by omega), cell_eq _ (by omega)]
    simp only [Option.bind_eq_bind, Option.bind_some, hFirst, true_and]
    split
    · simp only [putCell_eq _ _ (show index - 1 < maxFreePages by omega), Option.bind_some,
        shiftDownChecked_eq hRoom]
    · rfl
  · rw [if_neg hFirst, if_neg fun h => hFirst h.1]

theorem mergeRightChecked_eq (index : Nat) {t : Table} (hRoom : t.entry ≤ maxFreePages) :
    mergeRightChecked index t = some (mergeRight index t) := by
  unfold mergeRightChecked mergeRight
  by_cases hLast : index + 1 < t.entry
  · rw [if_pos hLast, cell_eq _ (by omega), cell_eq _ (by omega)]
    simp only [Option.bind_eq_bind, Option.bind_some, hLast, true_and]
    split
    · simp only [putCell_eq _ _ (show index < maxFreePages by omega), Option.bind_some,
        shiftDownChecked_eq hRoom]
    · rfl
  · rw [if_neg hLast, if_neg fun h => hLast h.1]

/-- **`allocate` stays inside the table.** -/
theorem allocateChecked_eq (size : Nat) {t : Table} (hRoom : t.entry ≤ maxFreePages) :
    allocateChecked size t = some (allocate size t) := by
  unfold allocateChecked allocate
  rw [foldlM_scanChecked hRoom, Option.bind_eq_bind, Option.bind_some]
  cases hScan : (List.range t.entry).foldl (scanStep t.map size) none with
  | none => rfl
  | some best =>
      have hBest := scan_lt hScan
      have hIn : best < maxFreePages := Nat.lt_of_lt_of_le hBest hRoom
      simp only [cell_eq _ hIn, Option.bind_eq_bind, Option.bind_some]
      by_cases hRemain : 0 < (t.map best).length - size
      · rw [if_pos hRemain, if_pos hRemain]
        by_cases hFull : maxFreePages ≤ t.entry
        · rw [if_pos hFull, if_pos hFull]
        · rw [if_neg hFull, if_neg hFull, shiftUpChecked_eq (by omega)]
          simp only [Option.bind_some, putCell_eq _ _ hIn,
            putCell_eq _ _ (show best + 1 < maxFreePages by omega)]
      · rw [if_neg hRemain, if_neg hRemain]
        simp only [putCell_eq _ _ hIn, Option.bind_some]

theorem mergeLeft_entry_le (index : Nat) (t : Table) :
    (mergeLeft index t).2.entry ≤ t.entry := by
  unfold mergeLeft
  split
  · exact Nat.sub_le _ _
  · exact Nat.le_refl _

/-- **`free` stays inside the table.** -/
theorem freeChecked_eq (p : Nat) {t : Table} (hRoom : t.entry ≤ maxFreePages) :
    freeChecked p t = some (free p t) := by
  have hRange : ∀ k ∈ List.range t.entry, k < maxFreePages := fun k hk =>
    Nat.lt_of_lt_of_le (List.mem_range.mp hk) hRoom
  unfold freeChecked free
  rw [findChecked_eq hRange, Option.bind_eq_bind, Option.bind_some]
  cases hFind : (List.range t.entry).find? fun k => (t.map k).base == p with
  | none => rfl
  | some index =>
      have hIndex := List.mem_range.mp (List.mem_of_find?_eq_some hFind)
      have hIn : index < maxFreePages := Nat.lt_of_lt_of_le hIndex hRoom
      obtain ⟨marked, hMarked⟩ : ∃ marked : Table,
          marked = { t with map := setMap t.map index { t.map index with type := 1 } } :=
        ⟨_, rfl⟩
      have hEntry : marked.entry = t.entry := by rw [hMarked]
      have hLeft := mergeLeftChecked_eq (hEntry ▸ hIndex) (hEntry ▸ hRoom)
      have hRight := mergeRightChecked_eq (mergeLeft index marked).1
        (Nat.le_trans (mergeLeft_entry_le index marked) (hEntry ▸ hRoom))
      simp only [cell_eq _ hIn, putCell_eq _ _ hIn, Option.bind_eq_bind, Option.bind_some,
        ← hMarked, hLeft, hRight]

/-! ## Runs -/

/-- One call, on positive sizes and any addresses. -/
def step (t : Table) : Call → Option Table
  | .allocate size => if size = 0 then none else some (allocate size t).2
  | .free p => some (free p t)

theorem step_intact {boot : List MemoryMap} (t : Table) (c : Call) (t' : Table)
    (h : Intact boot t.entries) (hStep : step t c = some t') : Intact boot t'.entries := by
  cases c with
  | allocate size =>
      simp only [step] at hStep
      split at hStep
      · simp at hStep
      · next hSize =>
          cases hStep
          exact h.allocate (by omega) (allocate_cases size t)
  | free p =>
      cases hStep
      exact h.free (free_cases p t)

/-- **The map stays intact.**  After every run of `allocate` and `free`, the
latter with any addresses, from a boot map of at most 1024 entries that are
not empty, do not overlap and do not wrap, the entries still are such, cover
the same addresses, stay in order, and every further call touches no cell
outside the table. -/
theorem table_intact {boot : Table} (hNonempty : ∀ e ∈ boot.entries, 0 < e.length)
    (hWrap : ∀ e ∈ boot.entries, e.base + e.length < 2 ^ 64)
    (hApart : PairwiseApart extentOf boot.entries) (hRoom : boot.entry ≤ maxFreePages)
    {calls : List Call} {t : Table} (hRun : exec step boot calls = some t) :
    (∀ e ∈ t.entries, 0 < e.length) ∧ PairwiseApart extentOf t.entries ∧
      (Ascending boot.entries → Ascending t.entries) ∧
      (∀ x, Covers t.entries x ↔ Covers boot.entries x) ∧ t.entry ≤ maxFreePages ∧
      (∀ size, allocateChecked size t = some (allocate size t)) ∧
      ∀ p, freeChecked p t = some (free p t) := by
  have h := exec_invariant (I := fun t => Intact boot.entries t.entries) step_intact
    (Intact.start hNonempty hWrap hApart (by simpa using hRoom)) hRun
  have hEntry : t.entry ≤ maxFreePages := by simpa using h.room
  exact ⟨h.nonempty, h.apart, h.ascending, h.covers, hEntry,
    fun size => allocateChecked_eq size hEntry, fun p => freeChecked_eq p hEntry⟩

/-- A piece is allocated, the reserved hole is freed and merged on both sides,
and an address nobody knows is freed. -/
theorem table_intact_pcMap :
    ∃ t, exec step PmmOwnership.pcMap [.allocate 4096, .free 0x9FC00, .free 0x100000, .free 7] =
        some t ∧
      t.entries = [⟨0, 0x200000, 1, 1⟩] ∧
      (∀ x, Covers t.entries x ↔ Covers PmmOwnership.pcMap.entries x) ∧
      allocateChecked 4096 t = some (allocate 4096 t) := by
  have hEntries : (exec step PmmOwnership.pcMap
      [.allocate 4096, .free 0x9FC00, .free 0x100000, .free 7]).map Table.entries =
        some [⟨0, 0x200000, 1, 1⟩] := by decide
  obtain ⟨t, hRun, ht⟩ := Option.map_eq_some_iff.mp hEntries
  obtain ⟨-, -, -, hCovers, -, hAllocate, -⟩ :=
    table_intact (by decide) (by decide) (by decide) (by decide) hRun
  exact ⟨t, hRun, ht, hCovers, hAllocate 4096⟩

end MiniKernel.Ports.PmmCoverage

import MiniKernel.Verified.Cells

/-!
# The physical memory map

`allocate` and `free` of `pmm.c` work in place on the E820 table the boot
loader leaves behind: a 16-bit count at `0x500` and the entries, from `0x504`
on.  The port keeps that shape.  A `Table` is the count and a total function
from index to entry, and the in-place shifts are the loops of the source, one
array cell at a time.

Everything after the array lemmas talks about `Table.entries`, the list of
the entries in use.  On that list `allocate` replaces one entry by one or two
and `free` replaces one entry and its mergeable neighbours by one; the two
inversion lemmas `allocate_cases` and `free_cases` say exactly this, and no
later module unfolds the loops.

Machine integers are natural numbers; a sum the source computes in 64 bits is
reduced modulo `2 ^ 64`, and the returned address modulo `2 ^ 32`.
-/

namespace MiniKernel.Ports.Pmm

open MiniKernel.Verified.Cells

/-- `Memory_Map`: one entry of the E820 table. -/
structure MemoryMap where
  base : Nat
  length : Nat
  type : Nat
  acpi : Nat
  deriving Repr, DecidableEq

/-- `MAX_FREE_PAGES`, which `allocate` also uses to bound the table. -/
def maxFreePages : Nat := 1024

/-- The table: `*entry` and the array `map`. -/
structure Table where
  entry : Nat
  map : Nat → MemoryMap

/-- `map[k] = e`. -/
def setMap (map : Nat → MemoryMap) (k : Nat) (e : MemoryMap) : Nat → MemoryMap :=
  fun j => if j = k then e else map j

/-- One turn of the best-fit loop; `none` is the source's `best == -1`. -/
def scanStep (map : Nat → MemoryMap) (size : Nat) (best : Option Nat) (k : Nat) :
    Option Nat :=
  if (map k).base = 0 then best
  else if size ≤ (map k).length ∧ (map k).type = 1 then
    match best with
    | none => some k
    | some b => if (map k).length < (map b).length then some k else some b
  else best

/-- `for (k = *entry; k > best; k--) map[k] = map[k - 1]`, from counter `k`. -/
def shiftUp (best : Nat) : Nat → (Nat → MemoryMap) → (Nat → MemoryMap)
  | 0, map => map
  | k + 1, map =>
      if best < k + 1 then shiftUp best k (setMap map (k + 1) (map k)) else map

/-- `for (k = index; k < *entry - 1; k++) map[k] = map[k + 1]`. -/
def shiftDown (index entry : Nat) (map : Nat → MemoryMap) : Nat → MemoryMap :=
  (List.range' index (entry - 1 - index)).foldl
    (fun m k => setMap m k (m (k + 1))) map

/-- `allocate`: the address handed out, `0` on failure, and the new table. -/
def allocate (size : Nat) (t : Table) : Nat × Table :=
  match (List.range t.entry).foldl (scanStep t.map size) none with
  | none => (0, t)
  | some best =>
      let remain := (t.map best).length - size
      if 0 < remain then
        if maxFreePages ≤ t.entry then (0, t)
        else
          let map₁ := shiftUp best t.entry t.map
          let map₂ := setMap map₁ (best + 1)
            { base := ((map₁ best).base + size) % 2 ^ 64
              length := remain
              type := 1
              acpi := (map₁ best).acpi }
          let map₃ := setMap map₂ best { map₂ best with length := size, type := 2 }
          ((map₃ best).base % 2 ^ 32, { entry := t.entry + 1, map := map₃ })
      else
        let map₁ := setMap t.map best { t.map best with length := size, type := 2 }
        ((map₁ best).base % 2 ^ 32, { t with map := map₁ })

/-- The end of an entry as the source computes it, in 64 bits. -/
def MemoryMap.limit (e : MemoryMap) : Nat := (e.base + e.length) % 2 ^ 64

/-- The first merge of `free`: into the entry before `index`. -/
def mergeLeft (index : Nat) (t : Table) : Nat × Table :=
  if 0 < index ∧ (t.map (index - 1)).type = 1 ∧
      (t.map (index - 1)).limit = (t.map index).base then
    let left := t.map (index - 1)
    let map₁ := setMap t.map (index - 1)
      { left with length := (left.length + (t.map index).length) % 2 ^ 64 }
    (index - 1, { entry := t.entry - 1, map := shiftDown index t.entry map₁ })
  else (index, t)

/-- The second merge of `free`: of the entry after `index`. -/
def mergeRight (index : Nat) (t : Table) : Table :=
  if index + 1 < t.entry ∧ (t.map (index + 1)).type = 1 ∧
      (t.map index).limit = (t.map (index + 1)).base then
    let here := t.map index
    let map₁ := setMap t.map index
      { here with length := (here.length + (t.map (index + 1)).length) % 2 ^ 64 }
    { entry := t.entry - 1, map := shiftDown (index + 1) t.entry map₁ }
  else t

/-- `free`: the first entry based at the address becomes usable and is merged
with usable neighbours it abuts. -/
def free (physicalAddress : Nat) (t : Table) : Table :=
  match (List.range t.entry).find? (fun k => (t.map k).base == physicalAddress) with
  | none => t
  | some index =>
      let t₁ := { t with map := setMap t.map index { t.map index with type := 1 } }
      let merged := mergeLeft index t₁
      mergeRight merged.1 merged.2

/-! ## The array loops -/

@[simp] theorem setMap_self (map : Nat → MemoryMap) (k : Nat) (e : MemoryMap) :
    setMap map k e k = e := by simp [setMap]

theorem setMap_ne {map : Nat → MemoryMap} {k j : Nat} (e : MemoryMap) (h : j ≠ k) :
    setMap map k e j = map j := by simp [setMap, h]

/-- The upward shift moves the cells `best … n - 1` one place up. -/
theorem shiftUp_apply (best : Nat) : ∀ (n : Nat) (map : Nat → MemoryMap) (j : Nat),
    shiftUp best n map j = if best < j ∧ j ≤ n then map (j - 1) else map j := by
  intro n
  induction n with
  | zero =>
      intro map j
      rw [if_neg (by omega)]
      rfl
  | succ n ih =>
      intro map j
      simp only [shiftUp]
      by_cases hTop : best < n + 1
      · rw [if_pos hTop, ih]
        by_cases hj : j = n + 1
        · subst hj
          have hOut : ¬(best < n + 1 ∧ n + 1 ≤ n) := by omega
          rw [if_neg hOut, if_pos ⟨hTop, Nat.le_refl _⟩]
          simp
        · by_cases hIn : best < j ∧ j ≤ n
          · rw [if_pos hIn, if_pos ⟨hIn.1, by omega⟩, setMap_ne _ (by omega)]
          · rw [if_neg hIn, if_neg (by omega), setMap_ne _ hj]
      · rw [if_neg hTop, if_neg (by omega)]

/-- `count` turns of the downward shift move the cells above `index` down. -/
theorem shiftDown_fold_apply (index : Nat) : ∀ (count : Nat)
    (map : Nat → MemoryMap) (j : Nat),
    (List.range' index count).foldl (fun m k => setMap m k (m (k + 1))) map j =
      if index ≤ j ∧ j < index + count then map (j + 1) else map j := by
  intro count
  induction count with
  | zero =>
      intro map j
      rw [if_neg (by omega)]
      rfl
  | succ count ih =>
      intro map j
      rw [List.range'_1_concat, List.foldl_append]
      simp only [List.foldl_cons, List.foldl_nil]
      by_cases hj : j = index + count
      · subst hj
        rw [setMap_self, ih, if_neg (by omega), if_pos (by omega)]
      · rw [setMap_ne _ hj, ih]
        by_cases hIn : index ≤ j ∧ j < index + count
        · rw [if_pos hIn, if_pos ⟨hIn.1, by omega⟩]
        · rw [if_neg hIn, if_neg (by omega)]

theorem shiftDown_apply (index entry : Nat) (map : Nat → MemoryMap) (j : Nat) :
    shiftDown index entry map j =
      if index ≤ j ∧ j + 1 < entry then map (j + 1) else map j := by
  rw [shiftDown, shiftDown_fold_apply]
  by_cases hIn : index ≤ j ∧ j + 1 < entry
  · rw [if_pos hIn, if_pos ⟨hIn.1, by omega⟩]
  · rw [if_neg hIn, if_neg (by omega)]

/-! ## The list of entries in use -/

/-- The entries `map[0] … map[*entry - 1]`. -/
def Table.entries (t : Table) : List MemoryMap := (List.range t.entry).map t.map

@[simp] theorem Table.entries_length (t : Table) :
    t.entries.length = t.entry := by simp [Table.entries]

theorem Table.entries_getElem (t : Table) (k : Nat) (hk : k < t.entries.length) :
    t.entries[k] = t.map k := by simp [Table.entries]

theorem Table.mem_entries {t : Table} {e : MemoryMap} :
    e ∈ t.entries ↔ ∃ k, k < t.entry ∧ t.map k = e := by
  simp [Table.entries]

/-- The list of entries is the one the first cells spell. -/
theorem Table.entries_eq_iff {t : Table} {es : List MemoryMap} :
    t.entries = es ↔ t.entry = es.length ∧ Spells t.map 0 es :=
  map_range_eq_iff

theorem entries_mk {n : Nat} {f : Nat → MemoryMap} {es : List MemoryMap} :
    Table.entries { entry := n, map := f } = es ↔ n = es.length ∧ Spells f 0 es :=
  map_range_eq_iff

/-- The table that holds a given list. -/
def Table.ofList (es : List MemoryMap) : Table where
  entry := es.length
  map := fun k => es.getD k { base := 0, length := 0, type := 0, acpi := 0 }

/-- What a decomposition of the entries says about the cells. -/
theorem Table.entries_eq_append {t : Table} {pre post : List MemoryMap}
    {e : MemoryMap} (h : t.entries = pre ++ e :: post) :
    t.entry = pre.length + 1 + post.length ∧ Spells t.map 0 pre ∧
      t.map pre.length = e ∧ Spells t.map (pre.length + 1) post := by
  obtain ⟨hLen, hSpells⟩ := Table.entries_eq_iff.mp h
  rw [spells_append, Nat.zero_add, spells_cons] at hSpells
  refine ⟨?_, hSpells⟩
  rw [hLen, List.length_append, List.length_cons]
  omega

/-- The entries are cut at any index into what is before, at and after it. -/
theorem Table.entries_split (t : Table) {k : Nat} (hk : k < t.entry) :
    ∃ pre post, t.entries = pre ++ t.map k :: post ∧ pre.length = k := by
  have hk' : k < t.entries.length := by simpa using hk
  refine ⟨t.entries.take k, t.entries.drop (k + 1), ?_, by simp; omega⟩
  rw [← t.entries_getElem k hk', List.getElem_cons_drop, List.take_append_drop]

/-- Writing one cell replaces one entry. -/
theorem Table.entries_setMap {t : Table} (pre : List MemoryMap) {post : List MemoryMap}
    {e : MemoryMap} (x : MemoryMap) (h : t.entries = pre ++ e :: post) :
    Table.entries { t with map := setMap t.map pre.length x } =
      pre ++ x :: post := by
  obtain ⟨hLen, hPre, hAt, hPost⟩ := Table.entries_eq_append h
  rw [entries_mk, spells_append, Nat.zero_add, spells_cons]
  refine ⟨by simp; omega, ?_, setMap_self _ _ _, ?_⟩
  · exact hPre.frame fun k _ hk => setMap_ne _ (by omega)
  · exact hPost.frame fun k hk _ => setMap_ne _ (by omega)

/-- The upward shift, with the count raised, doubles the entry at `best`. -/
theorem Table.entries_shiftUp {t : Table} {pre post : List MemoryMap}
    {e : MemoryMap} (h : t.entries = pre ++ e :: post) :
    Table.entries
        { entry := t.entry + 1, map := shiftUp pre.length t.entry t.map } =
      pre ++ e :: e :: post := by
  obtain ⟨hLen, hPre, hAt, hPost⟩ := Table.entries_eq_append h
  rw [entries_mk, spells_append, Nat.zero_add, spells_cons, spells_cons]
  refine ⟨by simp; omega, ?_, ?_, ?_, ?_⟩
  · refine hPre.frame fun k _ hk => ?_
    rw [shiftUp_apply, if_neg (by omega)]
  · rw [shiftUp_apply, if_neg (by omega), hAt]
  · rw [shiftUp_apply, if_pos (by omega), Nat.add_sub_cancel, hAt]
  · refine hPost.move fun k hk => ?_
    rw [shiftUp_apply, if_pos (by omega)]
    congr 1
    omega

/-- The downward shift, with the count lowered, removes an entry. -/
theorem Table.entries_shiftDown {t : Table} (pre post : List MemoryMap)
    (e : MemoryMap) (h : t.entries = pre ++ e :: post) :
    Table.entries
        { entry := t.entry - 1, map := shiftDown pre.length t.entry t.map } =
      pre ++ post := by
  obtain ⟨hLen, hPre, hAt, hPost⟩ := Table.entries_eq_append h
  rw [entries_mk, spells_append, Nat.zero_add]
  refine ⟨by simp; omega, ?_, ?_⟩
  · refine hPre.frame fun k _ hk => ?_
    rw [shiftDown_apply, if_neg (by omega)]
  · refine hPost.move fun k hk => ?_
    rw [shiftDown_apply, if_pos (by omega)]
    congr 1
    omega

/-! ## The best-fit search -/

/-- An entry `allocate` may carve `size` bytes from. -/
def Candidate (size : Nat) (e : MemoryMap) : Prop :=
  e.base ≠ 0 ∧ size ≤ e.length ∧ e.type = 1

instance (size : Nat) (e : MemoryMap) : Decidable (Candidate size e) := by
  unfold Candidate
  infer_instance

/-- What the search knows after the first `n` entries: the first of the
shortest candidates, if there is one. -/
def ScanInv (map : Nat → MemoryMap) (size n : Nat) : Option Nat → Prop
  | none => ∀ k < n, ¬Candidate size (map k)
  | some b => b < n ∧ Candidate size (map b) ∧
      (∀ k < n, Candidate size (map k) → (map b).length ≤ (map k).length) ∧
      ∀ k < b, Candidate size (map k) → (map b).length < (map k).length

theorem ScanInv.step {map : Nat → MemoryMap} {size n : Nat} {best : Option Nat}
    (h : ScanInv map size n best) :
    ScanInv map size (n + 1) (scanStep map size best n) := by
  by_cases hCand : Candidate size (map n)
  · obtain ⟨hBase, hFit, hType⟩ := hCand
    cases best with
    | none =>
        simp only [scanStep, if_neg hBase, if_pos (And.intro hFit hType)]
        refine ⟨by omega, ⟨hBase, hFit, hType⟩, ?_, fun k hk hc => absurd hc (h k hk)⟩
        intro k hk hc
        by_cases hkn : k = n
        · subst hkn
          exact Nat.le_refl _
        · exact absurd hc (h k (by omega))
    | some b =>
        obtain ⟨hb, hbCand, hMin, hFirst⟩ := h
        simp only [scanStep, if_neg hBase, if_pos (And.intro hFit hType)]
        by_cases hShort : (map n).length < (map b).length
        · rw [if_pos hShort]
          refine ⟨by omega, ⟨hBase, hFit, hType⟩, ?_, ?_⟩
          · intro k hk hc
            by_cases hkn : k = n
            · subst hkn
              exact Nat.le_refl _
            · have := hMin k (by omega) hc
              omega
          · intro k hk hc
            have := hMin k hk hc
            omega
        · rw [if_neg hShort]
          refine ⟨by omega, hbCand, ?_, hFirst⟩
          intro k hk hc
          by_cases hkn : k = n
          · rw [hkn]
            omega
          · exact hMin k (by omega) hc
  · have hSkip : scanStep map size best n = best := by
      unfold scanStep
      by_cases hBase : (map n).base = 0
      · rw [if_pos hBase]
      · rw [if_neg hBase, if_neg]
        exact fun hFit => hCand ⟨hBase, hFit⟩
    rw [hSkip]
    cases best with
    | none =>
        intro k hk
        by_cases hkn : k = n
        · rwa [hkn]
        · exact h k (by omega)
    | some b =>
        obtain ⟨hb, hbCand, hMin, hFirst⟩ := h
        refine ⟨by omega, hbCand, ?_, hFirst⟩
        intro k hk hc
        by_cases hkn : k = n
        · rw [hkn] at hc
          exact absurd hc hCand
        · exact hMin k (by omega) hc

/-- The whole search. -/
theorem scan_spec (map : Nat → MemoryMap) (size n : Nat) :
    ScanInv map size n ((List.range n).foldl (scanStep map size) none) := by
  induction n with
  | zero => intro k hk; omega
  | succ n ih =>
      rw [List.range_succ, List.foldl_append]
      exact ih.step

/-! ## What `allocate` does to the list of entries -/

/-- The allocated piece left in the place of the carved entry. -/
def MemoryMap.used (e : MemoryMap) (size : Nat) : MemoryMap :=
  { e with length := size, type := 2 }

/-- The usable piece left behind it. -/
def MemoryMap.rest (e : MemoryMap) (size : Nat) : MemoryMap :=
  { base := (e.base + size) % 2 ^ 64
    length := e.length - size
    type := 1
    acpi := e.acpi }

/-- What replaces a carved entry; an exact fit leaves no rest. -/
def MemoryMap.pieces (e : MemoryMap) (size : Nat) : List MemoryMap :=
  e.used size :: if size < e.length then [e.rest size] else []

/-- `e` is the best fit: the first of the shortest candidates. -/
structure BestFit (size : Nat) (es pre : List MemoryMap) (e : MemoryMap)
    (post : List MemoryMap) : Prop where
  split : es = pre ++ e :: post
  candidate : Candidate size e
  before : ∀ x ∈ pre, Candidate size x → e.length < x.length
  after : ∀ x ∈ post, Candidate size x → e.length ≤ x.length

/-- The outcomes of `allocate`: the entries before, the address returned and
the entries afterwards. -/
inductive Allocated (size : Nat) (es : List MemoryMap) : Nat → List MemoryMap → Prop
  | noCandidate : (∀ e ∈ es, ¬Candidate size e) → Allocated size es 0 es
  | tableFull {pre post : List MemoryMap} {e : MemoryMap} :
      BestFit size es pre e post → size < e.length →
      maxFreePages ≤ es.length → Allocated size es 0 es
  | taken {pre post : List MemoryMap} {e : MemoryMap} :
      BestFit size es pre e post →
      (size < e.length → es.length < maxFreePages) →
      Allocated size es (e.base % 2 ^ 32) (pre ++ e.pieces size ++ post)

theorem bestFit_of_scanInv {t : Table} {size b : Nat}
    (h : ScanInv t.map size t.entry (some b)) :
    ∃ pre post, BestFit size t.entries pre (t.map b) post ∧ pre.length = b := by
  obtain ⟨hb, hCand, hMin, hFirst⟩ := h
  obtain ⟨pre, post, hSplit, hPre⟩ := t.entries_split hb
  obtain ⟨hLen, hSpellPre, -, hSpellPost⟩ := Table.entries_eq_append hSplit
  refine ⟨pre, post, ⟨hSplit, hCand, ?_, ?_⟩, hPre⟩
  · intro x hx hc
    obtain ⟨k, hk, rfl⟩ := hSpellPre.mem hx
    rw [Nat.zero_add] at hc ⊢
    exact hFirst k (by omega) hc
  · intro x hx hc
    obtain ⟨k, hk, rfl⟩ := hSpellPost.mem hx
    exact hMin _ (by omega) hc

/-- **Inversion of `allocate`.** -/
theorem allocate_cases (size : Nat) (t : Table) :
    Allocated size t.entries (allocate size t).1 (allocate size t).2.entries := by
  have hScan := scan_spec t.map size t.entry
  unfold allocate
  generalize (List.range t.entry).foldl (scanStep t.map size) none = best at hScan
  cases best with
  | none =>
      refine Allocated.noCandidate fun e he => ?_
      obtain ⟨k, hk, rfl⟩ := Table.mem_entries.mp he
      exact hScan k hk
  | some b =>
      obtain ⟨pre, post, hBest, hb⟩ := bestFit_of_scanInv hScan
      subst hb
      have hFit := hBest.candidate.2.1
      simp only
      by_cases hRemain : 0 < (t.map pre.length).length - size
      · rw [if_pos hRemain]
        by_cases hFull : maxFreePages ≤ t.entry
        · rw [if_pos hFull]
          exact Allocated.tableFull hBest (by omega) (by simpa using hFull)
        · rw [if_neg hFull]
          have hShift := Table.entries_shiftUp hBest.split
          obtain ⟨-, -, hAt, -⟩ := Table.entries_eq_append hShift
          have hRest := Table.entries_setMap (pre ++ [t.map pre.length])
            ((t.map pre.length).rest size) (by simpa using hShift)
          have hUsed := Table.entries_setMap pre ((t.map pre.length).used size)
            (by simpa using hRest)
          have hTaken := Allocated.taken hBest fun _ => by
            simpa using Nat.lt_of_not_le hFull
          have hSmall : size < (t.map pre.length).length := by omega
          rw [MemoryMap.pieces, if_pos hSmall, List.append_assoc,
            List.cons_append, List.singleton_append, ← hUsed] at hTaken
          change shiftUp pre.length t.entry t.map pre.length = _ at hAt
          simpa [hAt, setMap_ne, MemoryMap.used, MemoryMap.rest] using hTaken
      · rw [if_neg hRemain]
        have hUsed := Table.entries_setMap pre ((t.map pre.length).used size)
          hBest.split
        have hTaken := Allocated.taken hBest fun hSmall => by omega
        have hExact : ¬size < (t.map pre.length).length := by omega
        rw [MemoryMap.pieces, if_neg hExact, List.append_assoc,
          List.singleton_append, ← hUsed] at hTaken
        simpa [MemoryMap.used] using hTaken

theorem allocate_lt (size : Nat) (t : Table) : (allocate size t).1 < 2 ^ 32 := by
  have h := allocate_cases size t
  generalize (allocate size t).1 = r, (allocate size t).2.entries = es' at h
  cases h with
  | noCandidate => decide
  | tableFull => decide
  | taken => exact Nat.mod_lt _ (by decide)

/-! ## What `free` does to the list of entries -/

/-- `free` merges `r` into the entry `l` before it. -/
def Glue (l r : MemoryMap) : Prop := l.type = 1 ∧ r.type = 1 ∧ l.limit = r.base

instance (l r : MemoryMap) : Decidable (Glue l r) := by
  unfold Glue
  infer_instance

/-- The merged entry. -/
def MemoryMap.join (l r : MemoryMap) : MemoryMap :=
  { l with length := (l.length + r.length) % 2 ^ 64 }

/-- The entry made usable. -/
def MemoryMap.usable (e : MemoryMap) : MemoryMap := { e with type := 1 }

/-- The second merge, on the list from the freed entry on. -/
def glueRight (e : MemoryMap) : List MemoryMap → List MemoryMap
  | [] => [e]
  | r :: post => if Glue e r then e.join r :: post else e :: r :: post

/-- The outcomes of `free`: no entry is based at the address, or the first
such entry is made usable, alone or joined to the entry before it, and then
joined to the entry after it. -/
inductive Freed (p : Nat) (es : List MemoryMap) : List MemoryMap → Prop
  | missing : (∀ e ∈ es, e.base ≠ p) → Freed p es es
  | alone {pre post : List MemoryMap} {e : MemoryMap} :
      es = pre ++ e :: post → e.base = p → (∀ x ∈ pre, x.base ≠ p) →
      (∀ l, pre.getLast? = some l → ¬Glue l e.usable) →
      Freed p es (pre ++ glueRight e.usable post)
  | joined {pre post : List MemoryMap} {l e : MemoryMap} :
      es = pre ++ l :: e :: post → e.base = p → (∀ x ∈ pre ++ [l], x.base ≠ p) →
      Glue l e.usable →
      Freed p es (pre ++ glueRight (l.join e) post)

theorem mergeLeft_join {t : Table} {pre post : List MemoryMap} {l e : MemoryMap}
    (h : t.entries = pre ++ l :: e :: post) (hGlue : Glue l e) :
    (mergeLeft (pre.length + 1) t).1 = pre.length ∧
      (mergeLeft (pre.length + 1) t).2.entries = pre ++ l.join e :: post := by
  obtain ⟨-, -, hl, he⟩ := Table.entries_eq_append h
  have hCond : 0 < pre.length + 1 ∧ (t.map (pre.length + 1 - 1)).type = 1 ∧
      (t.map (pre.length + 1 - 1)).limit = (t.map (pre.length + 1)).base := by
    rw [Nat.add_sub_cancel, hl, he.1]
    exact ⟨by omega, hGlue.1, hGlue.2.2⟩
  have hSet := Table.entries_setMap pre (l.join e) h
  have hShift := Table.entries_shiftDown (pre ++ [l.join e]) post e
    (by simpa using hSet)
  rw [mergeLeft, if_pos hCond]
  refine ⟨by simp, ?_⟩
  simpa [hl, he.1, MemoryMap.join] using hShift

theorem mergeLeft_skip {t : Table} {pre post : List MemoryMap} {e : MemoryMap}
    (h : t.entries = pre ++ e :: post) (he : e.type = 1)
    (hNo : ∀ l, pre.getLast? = some l → ¬Glue l e) :
    mergeLeft pre.length t = (pre.length, t) := by
  rw [mergeLeft, if_neg]
  rintro ⟨hPos, hType, hLimit⟩
  obtain ⟨front, l, rfl⟩ : ∃ front l, pre = front ++ [l] := by
    refine ⟨pre.dropLast, pre.getLast ?_, (List.dropLast_append_getLast _).symm⟩
    exact List.ne_nil_of_length_pos hPos
  obtain ⟨-, hSpells, hAt, -⟩ := Table.entries_eq_append h
  have hl : t.map front.length = l := by
    simpa using (spells_append.mp hSpells).2
  simp only [List.length_append, List.length_cons, List.length_nil,
    Nat.zero_add, Nat.add_sub_cancel] at hType hLimit hAt
  rw [hl] at hType hLimit
  rw [hAt] at hLimit
  exact hNo l (by simp) ⟨hType, he, hLimit⟩

theorem mergeRight_entries {t : Table} {pre post : List MemoryMap} {e : MemoryMap}
    (h : t.entries = pre ++ e :: post) (he : e.type = 1) :
    (mergeRight pre.length t).entries = pre ++ glueRight e post := by
  obtain ⟨hLen, -, hAt, hPost⟩ := Table.entries_eq_append h
  cases post with
  | nil =>
      simp only [List.length_nil] at hLen
      rw [mergeRight, if_neg (by omega), h]
      rfl
  | cons r post =>
      have hr : t.map (pre.length + 1) = r := hPost.1
      have hIn : pre.length + 1 < t.entry := by simp at hLen; omega
      rw [mergeRight, hAt, hr]
      by_cases hGlue : Glue e r
      · have hSet := Table.entries_setMap pre (e.join r) h
        have hShift := Table.entries_shiftDown (pre ++ [e.join r]) post r
          (by simpa using hSet)
        rw [if_pos ⟨hIn, hGlue.2.1, hGlue.2.2⟩, glueRight, if_pos hGlue]
        simpa [MemoryMap.join] using hShift
      · rw [if_neg fun hc => hGlue ⟨he, hc.2⟩, glueRight, if_neg hGlue, h]

/-- **Inversion of `free`.** -/
theorem free_cases (p : Nat) (t : Table) : Freed p t.entries (free p t).entries := by
  unfold free
  cases hFind : (List.range t.entry).find? (fun k => (t.map k).base == p) with
  | none =>
      refine Freed.missing fun e he => ?_
      obtain ⟨k, hk, rfl⟩ := Table.mem_entries.mp he
      simpa using List.find?_range_eq_none.mp hFind k hk
  | some index =>
      obtain ⟨hBase, hIndex, hFirst⟩ := List.find?_range_eq_some.mp hFind
      simp only [beq_iff_eq] at hBase
      obtain ⟨pre, post, hSplit, rfl⟩ := t.entries_split (List.mem_range.mp hIndex)
      obtain ⟨-, hSpells, -, -⟩ := Table.entries_eq_append hSplit
      have hPre : ∀ x ∈ pre, x.base ≠ p := by
        intro x hx
        obtain ⟨k, hk, rfl⟩ := hSpells.mem hx
        simpa using hFirst (0 + k) (by omega)
      have hSet := Table.entries_setMap pre ((t.map pre.length).usable) hSplit
      simp only
      by_cases hLeft : ∀ l, pre.getLast? = some l → ¬Glue l (t.map pre.length).usable
      · have hMerge := mergeRight_entries hSet rfl
        have hSkip := mergeLeft_skip hSet rfl hLeft
        simp only [MemoryMap.usable] at hSkip hMerge
        rw [hSkip]
        simp only [hMerge]
        exact Freed.alone hSplit hBase hPre hLeft
      · obtain ⟨l, hLast, hGlue⟩ : ∃ l, pre.getLast? = some l ∧
            Glue l (t.map pre.length).usable := by
          simpa using hLeft
        obtain ⟨front, rfl⟩ := List.getLast?_eq_some_iff.mp hLast
        have hFreed := Freed.joined (by simpa using hSplit) hBase hPre hGlue
        have hJoin := mergeLeft_join (by simpa using hSet) hGlue
        have hMerge := mergeRight_entries hJoin.2 hGlue.1
        simp only [MemoryMap.usable, List.length_append, List.length_cons,
          List.length_nil, Nat.zero_add] at hJoin hMerge ⊢
        rw [hJoin.1, hMerge]
        simpa [MemoryMap.join] using hFreed

/-- **Induction over `free`.**  A property of the entries survives `free`
when it survives making one entry usable and joining two entries that glue. -/
theorem Freed.closure {p : Nat} {es es' : List MemoryMap} (h : Freed p es es')
    {P : List MemoryMap → Prop} (hMissing : (∀ e ∈ es, e.base ≠ p) → P es)
    (hUsable : ∀ pre e post, es = pre ++ e :: post → e.base = p →
      (∀ x ∈ pre, x.base ≠ p) → P (pre ++ e.usable :: post))
    (hJoin : ∀ pre l r post, Glue l r → P (pre ++ l :: r :: post) →
      P (pre ++ l.join r :: post)) : P es' := by
  have hRight : ∀ pre e post, P (pre ++ e :: post) → P (pre ++ glueRight e post) := by
    intro pre e post hP
    cases post with
    | nil => exact hP
    | cons r post =>
        simp only [glueRight]
        split
        · next hGlue => exact hJoin pre e r post hGlue hP
        · exact hP
  cases h with
  | missing hNone => exact hMissing hNone
  | alone hSplit hBase hPre _ =>
      exact hRight _ _ _ (hUsable _ _ _ hSplit hBase hPre)
  | @joined pre post l e hSplit hBase hPre hGlue =>
      have hP := hUsable (pre ++ [l]) e post (by simpa using hSplit) hBase hPre
      exact hRight _ _ _ (hJoin pre l e.usable post hGlue (by simpa using hP))

end MiniKernel.Ports.Pmm

import MiniKernel.Ports.PmmBestFit
import MiniKernel.Ports.PmmRoundTrip

/-!
# What `free` keeps allocatable

`free` joins what it is given to the usable entries on either side.  `allocate`
passes over the entry at address 0, so that `0` can stand for failure; `free` does
not look at the address of its left neighbour, and what it joins to the entry at
address 0 is never handed out again.

`free_keeps_iff` says for one size when that matters: a request that could be met
still can be, unless every entry that could meet it has been joined to the one at 0.
-/

namespace MiniKernel.Ports.PmmRetention

open MiniKernel.Verified.Cells
open MiniKernel.Verified.Extents
open MiniKernel.Ports.Pmm
open MiniKernel.Ports.PmmOwnership
open MiniKernel.Ports.PmmRoundTrip

variable {p size : Nat} {es es' : List MemoryMap}

/-! ## What is lost -/

/-- `free p` joins `run` to the entry `z` before it: `z` itself is freed, or the entry
behind it is. -/
inductive Joined (p : Nat) (z : MemoryMap) : List MemoryMap → Prop
  | right {r : MemoryMap} : z.base = p → Glue z.usable r → Joined p z [r]
  | left {e : MemoryMap} : e.base = p → Glue z e.usable → Joined p z [e]
  | both {e r : MemoryMap} : e.base = p → Glue z e.usable → Glue e.usable r → Joined p z [e, r]

/-- `free p` joins `x` to the entry at address 0. -/
def Swallowed (p : Nat) (es : List MemoryMap) (x : MemoryMap) : Prop :=
  ∃ pre z run post, es = pre ++ z :: (run ++ post) ∧ z.base = 0 ∧ Joined p z run ∧ x ∈ run

/-- A map of nonempty disjoint entries below 4 GiB, of which there are at most 1024. -/
structure LowMap (es : List MemoryMap) : Prop where
  room : es.length ≤ maxFreePages
  nonempty : ∀ e ∈ es, 0 < e.length
  apart : PairwiseApart extentOf es
  low : ∀ e ∈ es, e.base + e.length ≤ 2 ^ 32

instance (es : List MemoryMap) : Decidable (LowMap es) :=
  decidable_of_iff (es.length ≤ maxFreePages ∧ (∀ e ∈ es, 0 < e.length) ∧
    PairwiseApart extentOf es ∧ ∀ e ∈ es, e.base + e.length ≤ 2 ^ 32)
    ⟨fun h => ⟨h.1, h.2.1, h.2.2.1, h.2.2.2⟩, fun h => ⟨h.room, h.nonempty, h.apart, h.low⟩⟩

/-- Two entries based at one address are one entry. -/
theorem LowMap.split_unique (h : LowMap es) {pre pre' post post' : List MemoryMap}
    {e e' : MemoryMap} (hSplit : es = pre ++ e :: post) (hSplit' : es = pre' ++ e' :: post')
    (hBase : e.base = e'.base) : pre = pre' ∧ e = e' ∧ post = post' := by
  have hOther := base_ne (hSplit ▸ h.apart) (hSplit ▸ h.nonempty)
  rcases cut_cases (hSplit.symm.trans hSplit') with hSame | ⟨hBehind, -⟩ | ⟨hFront, -⟩
  · exact hSame
  · exact absurd hBase.symm (hOther e' (List.mem_append_right _ hBehind))
  · exact absurd hBase.symm (hOther e' (List.mem_append_left _ hFront))

theorem glueRight_of_glue {e r : MemoryMap} (h : Glue e r) (post : List MemoryMap) :
    glueRight e (r :: post) = e.join r :: post := by
  rw [glueRight, if_pos h]

/-- `free` of an entry that glues to the one before it joins them first. -/
theorem freed_left (h : LowMap es) {pre post : List MemoryMap} {z e : MemoryMap}
    (hSplit : es = pre ++ z :: e :: post) (hBase : e.base = p) (hGlue : Glue z e.usable)
    (hFreed : Freed p es es') : es' = pre ++ glueRight (z.join e) post := by
  have hSplit₁ : es = (pre ++ [z]) ++ e :: post := by simpa using hSplit
  cases hFreed with
  | missing hNone => exact absurd hBase (hNone e (by rw [hSplit]; simp))
  | alone hSplit' hBase' hPre hNo =>
      obtain ⟨rfl, rfl, rfl⟩ := h.split_unique hSplit₁ hSplit' (hBase.trans hBase'.symm)
      exact absurd hGlue (hNo z (by simp))
  | @joined pre' post' l e' hSplit' hBase' hPre hGlue' =>
      have hSplit₂ : es = (pre' ++ [l]) ++ e' :: post' := by simpa using hSplit'
      obtain ⟨hFront, rfl, rfl⟩ := h.split_unique hSplit₁ hSplit₂ (hBase.trans hBase'.symm)
      obtain ⟨rfl, hLast⟩ := List.append_inj' hFront rfl
      obtain rfl := List.singleton_inj.mp hLast
      rfl

/-- `free` of the entry at address 0 has nothing before it to join. -/
theorem freed_first (h : LowMap es) {pre post : List MemoryMap} {z : MemoryMap}
    (hSplit : es = pre ++ z :: post) (hBase : z.base = p) (hZero : z.base = 0)
    (hFreed : Freed p es es') : es' = pre ++ glueRight z.usable post := by
  cases hFreed with
  | missing hNone => exact absurd hBase (hNone z (by rw [hSplit]; simp))
  | alone hSplit' hBase' hPre hNo =>
      obtain ⟨rfl, rfl, rfl⟩ := h.split_unique hSplit hSplit' (hBase.trans hBase'.symm)
      rfl
  | @joined pre' post' l e hSplit' hBase' hPre hGlue' =>
      -- nothing ends where the address space begins
      have hl : l ∈ es := by
        rw [hSplit']
        simp
      have hLow := h.low l hl
      have hPos := h.nonempty l hl
      have hLimit : l.limit = e.base := hGlue'.2.2
      have hStart : e.base = 0 := hBase'.trans (hBase.symm.trans hZero)
      unfold MemoryMap.limit at hLimit
      omega

/-- **What is swallowed is gone**: in its place and that of its neighbours the map has
one entry at address 0. -/
theorem swallowed_outcome (h : LowMap es) {x : MemoryMap} (hx : Swallowed p es x)
    (hFreed : Freed p es es') : ∃ pre z run post m, es = pre ++ z :: (run ++ post) ∧ x ∈ run ∧
      m.base = 0 ∧ es' = pre ++ m :: post := by
  obtain ⟨pre, z, run, post, hSplit, hZero, hJoined, hRun⟩ := hx
  cases hJoined with
  | @right r hBase hGlue =>
      refine ⟨pre, z, [r], post, z.usable.join r, hSplit, hRun, hZero, ?_⟩
      rw [freed_first h hSplit hBase hZero hFreed, List.singleton_append, glueRight_of_glue hGlue]
  | @left e hBase hGlue =>
      have hAfter : es' = pre ++ glueRight (z.join e) post :=
        freed_left h hSplit hBase hGlue hFreed
      cases post with
      | nil => exact ⟨pre, z, [e], [], z.join e, hSplit, hRun, hZero, hAfter⟩
      | cons r post =>
          by_cases hNext : Glue (z.join e) r
          · refine ⟨pre, z, [e, r], post, (z.join e).join r, hSplit,
              List.mem_cons.mpr (Or.inl (List.mem_singleton.mp hRun)), hZero, ?_⟩
            rw [hAfter, glueRight_of_glue hNext]
          · refine ⟨pre, z, [e], r :: post, z.join e, hSplit, hRun, hZero, ?_⟩
            rw [hAfter, glueRight, if_neg hNext]
  | @both e r hBase hGlue hNext =>
      have hBoth : Glue (z.join e) r := (glue_join_left hGlue).mpr hNext
      have hAfter : es' = pre ++ glueRight (z.join e) (r :: post) :=
        freed_left h hSplit hBase hGlue hFreed
      refine ⟨pre, z, [e, r], post, (z.join e).join r, hSplit, hRun, hZero, ?_⟩
      rw [hAfter, glueRight_of_glue hBoth]

/-- So nothing swallowed is left, and nothing new away from address 0. -/
theorem swallowed_rest (h : LowMap es) {x : MemoryMap} (hx : Swallowed p es x)
    (hFreed : Freed p es es') {y : MemoryMap} (hy : y ∈ es') (hBase : y.base ≠ 0) :
    y ∈ es ∧ y ≠ x := by
  obtain ⟨pre, z, run, post, m, hSplit, hRun, hZero, rfl⟩ := swallowed_outcome h hx hFreed
  have hIn : y ∈ pre ++ post := by
    rw [List.mem_append, List.mem_cons] at hy
    rcases hy with hy | rfl | hy
    · exact List.mem_append_left _ hy
    · exact absurd hZero hBase
    · exact List.mem_append_right _ hy
  refine ⟨?_, ?_⟩
  · rw [hSplit]
    rcases List.mem_append.mp hIn with hy | hy
    · exact List.mem_append_left _ hy
    · simp [hy]
  · rintro rfl
    obtain ⟨front, back, rfl⟩ := List.append_of_mem hRun
    have hCut : es = (pre ++ z :: front) ++ y :: (back ++ post) := by
      rw [hSplit]
      simp
    have hOther := base_ne (hCut ▸ h.apart) (hCut ▸ h.nonempty) y
    refine hOther ?_ rfl
    rcases List.mem_append.mp hIn with hy | hy
    · simp [hy]
    · simp [hy]

/-! ## What is kept -/

/-- A map that is not full has room for the rest of any candidate. -/
theorem not_fails_of_room (hRoom : es.length < maxFreePages)
    (h : ∃ x ∈ es, Candidate size x) : ¬Fails size es := by
  obtain ⟨x, hx, hc⟩ := h
  rintro (hNone | ⟨hFull, -⟩)
  · exact hNone x hx hc
  · omega

theorem candidate_of_not_fails (h : ¬Fails size es) : ∃ x ∈ es, Candidate size x := by
  by_contra hNone
  exact h (Or.inl fun x hx hc => hNone ⟨x, hx, hc⟩)

/-- Making an entry usable keeps every candidate. -/
theorem usable_keeps {pre post : List MemoryMap} {e : MemoryMap}
    (h : ¬Fails size (pre ++ e :: post)) : ¬Fails size (pre ++ e.usable :: post) := by
  have hKeep : ∀ x ∈ pre ++ e :: post, Candidate size x → x ∈ pre ++ e.usable :: post := by
    intro x hx hc
    rw [List.mem_append, List.mem_cons] at hx ⊢
    rcases hx with hx | rfl | hx
    · exact Or.inl hx
    · obtain ⟨base, length, type, acpi⟩ := x
      obtain rfl : type = 1 := hc.2.2
      exact Or.inr (Or.inl rfl)
    · exact Or.inr (Or.inr hx)
  rintro (hNone | ⟨hFull, hInexact⟩)
  · obtain ⟨x, hx, hc⟩ := candidate_of_not_fails h
    exact hNone x (hKeep x hx hc) hc
  · refine h (Or.inr ⟨by simpa using hFull, fun x hx hc => ?_⟩)
    exact hInexact x (hKeep x hx hc) hc

/-- The entry that takes the place of a run is a candidate where one of the run was,
unless it lies at address 0. -/
theorem join_candidate {l r x : MemoryMap} (hType : l.type = 1) (hBase : l.base ≠ 0)
    (hl : l.length ≤ 2 ^ 33) (hr : r.length ≤ 2 ^ 32) (hx : x.length ≤ l.length ∨ x = r)
    (hc : Candidate size x) : Candidate size (l.join r) := by
  have hLength : (l.join r).length = l.length + r.length :=
    Nat.mod_eq_of_lt (by omega)
  refine ⟨hBase, ?_, hType⟩
  rw [hLength]
  have hFit := hc.2.1
  rcases hx with hx | rfl
  · omega
  · omega

/-- A candidate is among the entries around a merged one, or in it. -/
theorem candidate_around {pre post : List MemoryMap} {m x : MemoryMap} (hc : Candidate size x)
    (h : x ∈ pre ∨ Candidate size m ∨ x ∈ post) : ∃ y ∈ pre ++ m :: post, Candidate size y := by
  rcases h with hx | hm | hx
  · exact ⟨x, List.mem_append_left _ hx, hc⟩
  · exact ⟨m, List.mem_append_right _ List.mem_cons_self, hm⟩
  · exact ⟨x, List.mem_append_right _ (List.mem_cons_of_mem _ hx), hc⟩

/-- **A candidate that is not swallowed** leaves one behind. -/
theorem freed_keeps (h : LowMap es) (hFreed : Freed p es es') (hFits : ¬Fails size es)
    {x : MemoryMap} (hx : x ∈ es) (hc : Candidate size x) (hKept : ¬Swallowed p es x) :
    ¬Fails size es' := by
  have hSize {e : MemoryMap} (he : e ∈ es) : e.length ≤ 2 ^ 32 := by
    have hLow := h.low e he
    omega
  have hRoom := h.room
  cases hFreed with
  | missing => exact hFits
  | @alone pre post e hSplit hBase hPre hNo =>
      subst hSplit
      cases post with
      | nil => exact usable_keeps hFits
      | cons r post =>
          by_cases hGlue : Glue e.usable r
          · rw [glueRight_of_glue hGlue]
            have he : e.length ≤ 2 ^ 32 := hSize (by simp)
            have hr : r.length ≤ 2 ^ 32 := hSize (by simp)
            have hJoin (hZero : e.base ≠ 0) (hIn : x.length ≤ e.length ∨ x = r) :
                Candidate size (e.usable.join r) :=
              join_candidate rfl hZero (Nat.le_trans he (by decide)) hr hIn hc
            refine not_fails_of_room (by simp at hRoom ⊢; omega) (candidate_around hc ?_)
            rw [List.mem_append, List.mem_cons, List.mem_cons] at hx
            rcases hx with hx | rfl | rfl | hx
            · exact Or.inl hx
            · exact Or.inr (Or.inl (hJoin hc.1 (Or.inl (Nat.le_refl _))))
            · refine Or.inr (Or.inl (hJoin (fun hZero => hKept ?_) (Or.inr rfl)))
              exact ⟨pre, e, [x], post, rfl, hZero, .right hBase hGlue, List.mem_cons_self⟩
            · exact Or.inr (Or.inr hx)
          · rw [glueRight, if_neg hGlue]
            exact usable_keeps hFits
  | @joined pre post l e hSplit hBase hPre hGlue =>
      subst hSplit
      have hl : l.length ≤ 2 ^ 32 := hSize (by simp)
      have he : e.length ≤ 2 ^ 32 := hSize (by simp)
      have hFirst (hZero : l.base ≠ 0) (hIn : x.length ≤ l.length ∨ x = e) :
          Candidate size (l.join e) :=
        join_candidate hGlue.1 hZero (Nat.le_trans hl (by decide)) he hIn hc
      -- `e` is swallowed when `l` lies at address 0
      have hFreedEntry (hxe : x = e) : l.base ≠ 0 := by
        rintro hZero
        exact hKept ⟨pre, l, [e], post, rfl, hZero, .left hBase hGlue, List.mem_singleton.mpr hxe⟩
      rw [List.mem_append, List.mem_cons, List.mem_cons] at hx
      cases post with
      | nil =>
          refine not_fails_of_room (by simp [glueRight] at hRoom ⊢; omega)
            (candidate_around hc ?_)
          rcases hx with hx | rfl | rfl | hx
          · exact Or.inl hx
          · exact Or.inr (Or.inl (hFirst hc.1 (Or.inl (Nat.le_refl _))))
          · exact Or.inr (Or.inl (hFirst (hFreedEntry rfl) (Or.inr rfl)))
          · cases hx
      | cons r post =>
          by_cases hNext : Glue (l.join e) r
          · rw [glueRight_of_glue hNext]
            have hr : r.length ≤ 2 ^ 32 := hSize (by simp)
            have hSum : (l.join e).length = l.length + e.length := Nat.mod_eq_of_lt (by omega)
            have hBoth (hZero : l.base ≠ 0) (hIn : x.length ≤ l.length + e.length ∨ x = r) :
                Candidate size ((l.join e).join r) := by
              refine join_candidate hGlue.1 hZero (by omega) hr ?_ hc
              rwa [hSum]
            refine not_fails_of_room (by simp at hRoom ⊢; omega) (candidate_around hc ?_)
            rw [List.mem_cons] at hx
            rcases hx with hx | rfl | rfl | rfl | hx
            · exact Or.inl hx
            · exact Or.inr (Or.inl (hBoth hc.1 (Or.inl (by omega))))
            · exact Or.inr (Or.inl (hBoth (hFreedEntry rfl) (Or.inl (by omega))))
            · refine Or.inr (Or.inl (hBoth (fun hZero => hKept ?_) (Or.inr rfl)))
              have hGlue' : Glue e.usable x := (glue_join_left hGlue).mp hNext
              exact ⟨pre, l, [e, x], post, rfl, hZero, .both hBase hGlue hGlue', by simp⟩
            · exact Or.inr (Or.inr hx)
          · rw [glueRight, if_neg hNext]
            refine not_fails_of_room (by simp at hRoom ⊢; omega) (candidate_around hc ?_)
            rcases hx with hx | rfl | rfl | hx
            · exact Or.inl hx
            · exact Or.inr (Or.inl (hFirst hc.1 (Or.inl (Nat.le_refl _))))
            · exact Or.inr (Or.inl (hFirst (hFreedEntry rfl) (Or.inr rfl)))
            · exact Or.inr (Or.inr hx)

/-- In a map below 4 GiB `0` stands for failure and nothing else. -/
theorem allocate_zero_iff {t : Table} (hLow : ∀ e ∈ t.entries, e.base < 2 ^ 32) :
    (allocate size t).1 = 0 ↔ Fails size t.entries := by
  rcases allocate_carves size t with ⟨hFails, hZero, -⟩ |
    ⟨hFits, pre, e, post, hBest, hBase, -⟩
  · exact iff_of_true hZero hFails
  · refine iff_of_false ?_ hFits
    rw [hBase, Nat.mod_eq_of_lt (hLow e hBest.mem)]
    exact hBest.candidate.1

/-- `free` moves no entry up. -/
theorem freed_low (h : ∀ e ∈ es, e.base < 2 ^ 32) (hFreed : Freed p es es') :
    ∀ e ∈ es', e.base < 2 ^ 32 := by
  apply hFreed.closure
  · exact fun _ => h
  · intro pre e post hSplit _ _ x hx
    subst hSplit
    rw [List.mem_append, List.mem_cons] at hx
    rcases hx with hx | rfl | hx
    · exact h x (by simp [hx])
    · exact h e (by simp)
    · exact h x (by simp [hx])
  · intro pre l r post _ hLow x hx
    rw [List.mem_append, List.mem_cons] at hx
    rcases hx with hx | rfl | hx
    · exact hLow x (by simp [hx])
    · exact hLow l (by simp)
    · exact hLow x (by simp [hx])

/-- **What `free` keeps.**  A size that can be allocated can still be allocated behind
`free p` exactly if some entry that fits it is not joined to the one at address 0. -/
theorem free_keeps_iff (p size : Nat) {t : Table} (h : LowMap t.entries) :
    ((allocate size t).1 ≠ 0 → (allocate size (free p t)).1 ≠ 0) ↔
      Fails size t.entries ∨
        ∃ x ∈ t.entries, Candidate size x ∧ ¬Swallowed p t.entries x := by
  have hLow : ∀ e ∈ t.entries, e.base < 2 ^ 32 := by
    intro e he
    have hEnd := h.low e he
    have hPos := h.nonempty e he
    omega
  have hFreed := free_cases p t
  rw [ne_eq, ne_eq, allocate_zero_iff hLow, allocate_zero_iff (freed_low hLow hFreed)]
  constructor
  · intro hKeeps
    by_cases hFails : Fails size t.entries
    · exact Or.inl hFails
    · refine Or.inr ?_
      obtain ⟨x, hx, hc⟩ := candidate_of_not_fails hFails
      by_cases hSwallowed : Swallowed p t.entries x
      · -- what fits behind `free` was there before, and nothing swallowed is there
        obtain ⟨y, hy, hcy⟩ := candidate_of_not_fails (hKeeps hFails)
        refine ⟨y, (swallowed_rest h hSwallowed hFreed hy hcy.1).1, hcy, fun hGone => ?_⟩
        exact (swallowed_rest h hGone hFreed hy hcy.1).2 rfl
      · exact ⟨x, hx, hc, hSwallowed⟩
  · intro hCond hFits
    obtain ⟨x, hx, hc, hKept⟩ := hCond.resolve_left hFits
    exact freed_keeps h hFreed hFits hx hc hKept

/-- Memory from 1 MiB on, of which one page is in use. -/
def onePageUsed : Table := Table.ofList
  [ { base := 0x100000, length := 0x1000, type := 2, acpi := 1 }
  , { base := 0x101000, length := 0xFF000, type := 1, acpi := 1 } ]

theorem free_keeps_iff_onePageUsed :
    (allocate 0xFF000 onePageUsed).1 ≠ 0 ∧
      (allocate 0xFF000 (free 0x100000 onePageUsed)).1 ≠ 0 := by
  have hBefore : (allocate 0xFF000 onePageUsed).1 ≠ 0 := by decide +kernel
  refine ⟨hBefore, (free_keeps_iff 0x100000 0xFF000 (by decide +kernel)).mpr (Or.inr ?_) hBefore⟩
  refine ⟨{ base := 0x101000, length := 0xFF000, type := 1, acpi := 1 }, by decide +kernel,
    by decide +kernel, ?_⟩
  rintro ⟨pre, z, run, post, hSplit, hZero, -⟩
  have hBases : ∀ e ∈ onePageUsed.entries, e.base ≠ 0 := by decide +kernel
  exact hBases z (by rw [hSplit]; simp) hZero

/-- Memory up to 640 KiB, reported in two parts; the first page of the second is in use. -/
def lowUsed : Table := Table.ofList
  [ { base := 0, length := 0x80000, type := 1, acpi := 1 }
  , { base := 0x80000, length := 0x1000, type := 2, acpi := 1 }
  , { base := 0x81000, length := 0x1F000, type := 1, acpi := 1 } ]

/-- **Giving a page back** makes all memory unallocatable. -/
theorem free_loses_memory :
    LowMap lowUsed.entries ∧ (allocate 0x1000 lowUsed).1 = 0x81000 ∧
      (free 0x80000 lowUsed).entries = [{ base := 0, length := 0xA0000, type := 1, acpi := 1 }] ∧
      (allocate 0x1000 (free 0x80000 lowUsed)).1 = 0 := by
  refine ⟨?_, ?_, ?_, ?_⟩
  all_goals decide +kernel

end MiniKernel.Ports.PmmRetention

import MiniKernel.Ports.PmmOwnership
import Mathlib.Data.List.Chain

/-!
# Freeing everything restores the boot map

`allocate` cuts entries and `free` merges them, in whatever order the callers
choose, and the map may be fragmented in many ways in between.  What never
changes is the map one gets by pretending every live allocation were free and
merging all neighbours that abut (`settle ∘ unlive`): cutting an entry and
merging two neighbours are both invisible there, by the one equation
`glueRight_glueRight`.  The second half of the invariant is that the map never
holds two neighbours `free` should have merged, so once nothing is live,
`settle` has nothing left to do and the map is the boot map again.
-/

namespace MiniKernel.Ports.PmmRoundTrip

open MiniKernel.Verified.Extents
open MiniKernel.Verified.Trace
open MiniKernel.Ports.Pmm
open MiniKernel.Ports.PmmOwnership

/-- Merge all neighbours that abut. -/
def settle (es : List MemoryMap) : List MemoryMap := es.foldr glueRight []

/-- Pretend that the entries based at a live address were usable. -/
def unlive (live : List Nat) (es : List MemoryMap) : List MemoryMap :=
  es.map fun e => if e.base ∈ live then e.usable else e

/-- No two neighbours wait to be merged. -/
abbrev Merged (es : List MemoryMap) : Prop := es.IsChain fun l r => ¬Glue l r

/-! ## Merging -/

theorem limit_join {l r : MemoryMap} (h : l.limit = r.base) :
    (l.join r).limit = r.limit := by
  simp only [MemoryMap.limit, MemoryMap.join] at h ⊢
  rw [← h]
  omega

/-- Joining moves the right end of the left entry to that of the right one. -/
theorem glue_join_left {l r q : MemoryMap} (h : Glue l r) :
    Glue (l.join r) q ↔ Glue r q := by
  have hLimit := limit_join h.2.2
  simp only [Glue, hLimit, show (l.join r).type = l.type from rfl, h.1, h.2.1]

theorem glue_join_right {q l r : MemoryMap} : Glue q (l.join r) ↔ Glue q l := by
  simp [Glue, MemoryMap.join]

theorem join_join (l r q : MemoryMap) : l.join (r.join q) = (l.join r).join q := by
  simp only [MemoryMap.join, MemoryMap.mk.injEq, true_and, and_true]
  omega

/-- **The merge equation.**  Merging `r` and then `l` into a settled map is
merging `l.join r` into it. -/
theorem glueRight_glueRight {l r : MemoryMap} (h : Glue l r) (es : List MemoryMap) :
    glueRight l (glueRight r es) = glueRight (l.join r) es := by
  cases es with
  | nil => simp [glueRight, h]
  | cons q es =>
      by_cases hq : Glue r q
      · have hOuter : Glue l (r.join q) := glue_join_right.mpr h
        have hJoined : Glue (l.join r) q := (glue_join_left h).mpr hq
        simp only [glueRight, if_pos hq, if_pos hOuter, if_pos hJoined, join_join]
      · have hJoined : ¬Glue (l.join r) q := fun hc => hq ((glue_join_left h).mp hc)
        simp only [glueRight, if_neg hq, if_pos h, if_neg hJoined]

theorem settle_append (xs ys : List MemoryMap) :
    settle (xs ++ ys) = xs.foldr glueRight (settle ys) := by
  simp [settle, List.foldr_append]

@[simp] theorem settle_cons (e : MemoryMap) (es : List MemoryMap) :
    settle (e :: es) = glueRight e (settle es) := rfl

/-- A merged map is already settled. -/
theorem settle_of_merged {es : List MemoryMap} (h : Merged es) : settle es = es := by
  induction es with
  | nil => rfl
  | cons e es ih =>
      have hTail : Merged es := h.tail
      rw [settle_cons, ih hTail]
      cases es with
      | nil => rfl
      | cons r es =>
          have hHead : ¬Glue e r := (List.isChain_cons_cons.mp h).1
          simp [glueRight, hHead]

/-! ## Merged maps -/

theorem merged_glueRight {e : MemoryMap} {post : List MemoryMap}
    (h : Merged post) : Merged (glueRight e post) := by
  cases post with
  | nil => exact List.isChain_singleton e
  | cons r post =>
      by_cases hGlue : Glue e r
      · rw [glueRight, if_pos hGlue]
        cases post with
        | nil => exact List.isChain_singleton _
        | cons q post =>
            obtain ⟨hrq, hRest⟩ := List.isChain_cons_cons.mp h
            refine List.isChain_cons_cons.mpr ⟨?_, hRest⟩
            exact fun hc => hrq ((glue_join_left hGlue).mp hc)
      · rw [glueRight, if_neg hGlue]
        exact List.isChain_cons_cons.mpr ⟨hGlue, h⟩

/-- `glueRight` starts with an entry that glues to the left as `e` does. -/
theorem glueRight_head (e : MemoryMap) (post : List MemoryMap) :
    ∃ d ds, glueRight e post = d :: ds ∧ ∀ l, Glue l d ↔ Glue l e := by
  cases post with
  | nil => exact ⟨e, [], rfl, fun _ => Iff.rfl⟩
  | cons r post =>
      by_cases hGlue : Glue e r
      · exact ⟨e.join r, post, by simp [glueRight, hGlue], fun _ => glue_join_right⟩
      · exact ⟨e, r :: post, by simp [glueRight, hGlue], fun _ => Iff.rfl⟩

theorem merged_append_glueRight {pre post : List MemoryMap} {e : MemoryMap}
    (hPre : Merged pre) (hPost : Merged post)
    (hSeam : ∀ l, pre.getLast? = some l → ¬Glue l e) :
    Merged (pre ++ glueRight e post) := by
  obtain ⟨d, ds, hEq, hHead⟩ := glueRight_head e post
  refine List.isChain_append.mpr ⟨hPre, merged_glueRight hPost, ?_⟩
  intro l hl x hx
  rw [hEq] at hx
  obtain rfl : d = x := by simpa using hx
  exact fun hc => hSeam l (by simpa using hl) ((hHead l).mp hc)

theorem merged_pieces {pre post : List MemoryMap} {e : MemoryMap} {size : Nat}
    (h : Merged (pre ++ e :: post)) (hType : e.type = 1) :
    Merged (pre ++ e.pieces size ++ post) := by
  obtain ⟨hPre, hTail, -⟩ := List.isChain_append.mp h
  have hUsedLeft : ∀ l, ¬Glue l (e.used size) := fun l hc => by
    simpa [MemoryMap.used] using hc.2.1
  have hUsedRight : ∀ r, ¬Glue (e.used size) r := fun r hc => by
    simpa [MemoryMap.used] using hc.1
  have hPost : Merged post := hTail.tail
  have hMid : Merged (e.pieces size ++ post) := by
    unfold MemoryMap.pieces
    split
    · next hSmall =>
        refine List.isChain_cons_cons.mpr ⟨hUsedRight _, ?_⟩
        cases post with
        | nil => exact List.isChain_singleton _
        | cons q post =>
            refine List.isChain_cons_cons.mpr ⟨fun hc => ?_, hPost⟩
            refine (List.isChain_cons_cons.mp hTail).1 ⟨hType, hc.2.1, ?_⟩
            rw [← hc.2.2]
            simp only [MemoryMap.limit, MemoryMap.rest]
            omega
    · cases post with
      | nil => exact List.isChain_singleton _
      | cons q post => exact List.isChain_cons_cons.mpr ⟨hUsedRight _, hPost⟩
  rw [List.append_assoc]
  refine List.isChain_append.mpr ⟨hPre, hMid, ?_⟩
  intro l _ x hx
  obtain rfl : e.used size = x := by simpa [MemoryMap.pieces] using hx
  exact hUsedLeft l

/-- `free` leaves no two neighbours to merge. -/
theorem Freed.merged {p : Nat} {es es' : List MemoryMap} (hFreed : Freed p es es')
    (h : Merged es) : Merged es' := by
  cases hFreed with
  | missing => exact h
  | alone hSplit _ _ hSeam =>
      rw [hSplit] at h
      obtain ⟨hPre, hTail, -⟩ := List.isChain_append.mp h
      exact merged_append_glueRight hPre hTail.tail hSeam
  | @joined pre post l e hSplit _ _ hGlue =>
      rw [hSplit] at h
      obtain ⟨hPre, hTail, hSeam⟩ := List.isChain_append.mp h
      refine merged_append_glueRight hPre hTail.tail.tail fun x hx hc => ?_
      exact hSeam x hx l (by simp) (glue_join_right.mp hc)

/-! ## The invariant -/

/-- The map owns its live allocations, and pretending they were free and
merging everything gives the boot map back. -/
structure Restorable (boot es : List MemoryMap) (live : List Extent) : Prop where
  owned : Owned boot es live
  nonempty : ∀ e ∈ es, 0 < e.length
  settled : settle (unlive (live.map Extent.base) es) = boot
  merged : Merged es

/-- A usable entry looks the same to `unlive`, live or not. -/
theorem unlive_cons_of_usable {live : List Nat} {e : MemoryMap}
    {es : List MemoryMap} (hType : e.type = 1) :
    unlive live (e :: es) = e :: unlive live es := by
  have hSame : e.usable = e := by
    cases e
    simp only [MemoryMap.usable] at hType ⊢
    rw [hType]
  simp [unlive, hSame]

theorem unlive_append (live : List Nat) (xs ys : List MemoryMap) :
    unlive live (xs ++ ys) = unlive live xs ++ unlive live ys := by
  simp [unlive]

/-- Entries based elsewhere do not notice that an address becomes live. -/
theorem unlive_congr {live live' : List Nat} {es : List MemoryMap}
    (h : ∀ e ∈ es, e.base ∈ live ↔ e.base ∈ live') : unlive live es = unlive live' es := by
  apply List.map_congr_left
  intro e he
  simp only [h e he]

/-- In a map of nonempty disjoint entries no other entry is based where `e` is. -/
theorem base_ne {pre post : List MemoryMap} {e : MemoryMap}
    (hApart : PairwiseApart extentOf (pre ++ e :: post))
    (hNonempty : ∀ d ∈ pre ++ e :: post, 0 < d.length) :
    ∀ d ∈ pre ++ post, d.base ≠ e.base := by
  intro d hd hBase
  have hde : (extentOf d).Apart (extentOf e) := by
    rw [PairwiseApart, List.pairwise_append, List.pairwise_cons] at hApart
    rcases List.mem_append.mp hd with hd | hd
    · exact hApart.2.2 d hd e (by simp)
    · exact (hApart.2.1.1 d hd).symm
  have hdPos := hNonempty d (by simp at hd ⊢; tauto)
  have hePos := hNonempty e (by simp)
  have hAt := hde e.base
  simp only [extentOf, Extent.Has] at hAt
  omega

/-- Cutting a usable entry is invisible once its front is live. -/
theorem settle_unlive_pieces {live : List Nat} {pre post : List MemoryMap}
    {e : MemoryMap} {size : Nat} (hType : e.type = 1) (hFit : size ≤ e.length)
    (hWord : e.length < 2 ^ 64) (hOther : ∀ d ∈ pre ++ post, d.base ≠ e.base) :
    settle (unlive (e.base :: live) (pre ++ e.pieces size ++ post)) =
      settle (unlive live (pre ++ e :: post)) := by
  have hSame : ∀ xs, (∀ d ∈ xs, d ∈ pre ++ post) →
      unlive (e.base :: live) xs = unlive live xs := by
    intro xs hxs
    refine unlive_congr fun d hd => ?_
    simp [hOther d (hxs d hd)]
  have hPre := hSame pre fun d hd => List.mem_append_left _ hd
  have hPost := hSame post fun d hd => List.mem_append_right _ hd
  have hUsed : ∀ xs, unlive (e.base :: live) (e.used size :: xs) =
      (e.used size).usable :: unlive (e.base :: live) xs := by
    intro xs
    simp [unlive, MemoryMap.used]
  rw [List.append_assoc, unlive_append _ pre, unlive_append live pre, hPre,
    settle_append, settle_append, unlive_cons_of_usable hType]
  congr 1
  unfold MemoryMap.pieces
  split
  · next hSmall =>
      have hGlue : Glue (e.used size).usable (e.rest size) := ⟨rfl, rfl, rfl⟩
      have hWhole : (e.used size).usable.join (e.rest size) = e := by
        have hLen : (size + (e.length - size)) % 2 ^ 64 = e.length := by omega
        cases e
        simp only [MemoryMap.used, MemoryMap.usable, MemoryMap.rest,
          MemoryMap.join, MemoryMap.mk.injEq, true_and, and_true] at hLen hType ⊢
        exact ⟨hLen, hType.symm⟩
      rw [List.cons_append, hUsed, List.singleton_append,
        unlive_cons_of_usable (by rfl), settle_cons, settle_cons, settle_cons,
        glueRight_glueRight hGlue, hWhole, hPost]
  · next hExact =>
      have hWhole : (e.used size).usable = e := by
        have hLen : size = e.length := by omega
        cases e
        simp only [MemoryMap.used, MemoryMap.usable, MemoryMap.mk.injEq,
          true_and, and_true] at hLen hType ⊢
        exact ⟨hLen, hType.symm⟩
      rw [List.singleton_append, hUsed, hWhole, hPost]

theorem Restorable.allocate {boot es es' : List MemoryMap} {live : List Extent}
    {size r : Nat} (h : Restorable boot es live) (hAlloc : Allocated size es r es')
    (hSize : 0 < size) :
    Restorable boot es' (if r = 0 then live else ⟨r, size⟩ :: live) := by
  have hOwned := h.owned.allocate hAlloc hSize
  cases hAlloc with
  | noCandidate => exact h
  | tableFull => exact h
  | @taken pre post e hBest =>
      obtain ⟨rfl, ⟨hBase, hFit, hType⟩, -, -⟩ := hBest
      have hLow := h.owned.low e (by simp) hType
      have hAddr : e.base % 2 ^ 32 = e.base := Nat.mod_eq_of_lt (by omega)
      rw [hAddr, if_neg hBase] at hOwned ⊢
      refine
        { owned := hOwned
          nonempty := ?_
          settled := ?_
          merged := merged_pieces h.merged hType }
      · intro d hd
        simp only [List.mem_append, MemoryMap.pieces, List.mem_cons] at hd
        rcases hd with (hd | rfl | hd) | hd
        · exact h.nonempty d (by simp [hd])
        · exact hSize
        · split at hd
          · next hSmall =>
              rw [List.mem_singleton.mp hd]
              exact Nat.sub_pos_of_lt hSmall
          · simp at hd
        · exact h.nonempty d (by simp [hd])
      · rw [List.map_cons, settle_unlive_pieces hType hFit (by omega)
          (base_ne h.owned.apart h.nonempty)]
        exact h.settled

/-- Making the freed entry usable is invisible once its address is not live. -/
theorem settle_unlive_release {live : List Extent} {a : Extent}
    {pre post : List MemoryMap} {e : MemoryMap} (ha : a ∈ live)
    (hBase : e.base = a.base) (hOther : ∀ d ∈ pre ++ post, d.base ≠ e.base) :
    unlive ((live.filter (·.base ≠ a.base)).map Extent.base)
        (pre ++ e.usable :: post) =
      unlive (live.map Extent.base) (pre ++ e :: post) := by
  have hSame : ∀ d : MemoryMap, d.base ≠ a.base →
      (d.base ∈ (live.filter (·.base ≠ a.base)).map Extent.base ↔
        d.base ∈ live.map Extent.base) := by
    intro d hd
    simp only [List.mem_map, List.mem_filter, decide_eq_true_eq]
    constructor
    · rintro ⟨b, ⟨hb, -⟩, hEq⟩
      exact ⟨b, hb, hEq⟩
    · rintro ⟨b, hb, hEq⟩
      exact ⟨b, ⟨hb, by omega⟩, hEq⟩
  have hLive : e.base ∈ live.map Extent.base :=
    List.mem_map.mpr ⟨a, ha, hBase.symm⟩
  rw [unlive_append, unlive_append, unlive_cons_of_usable (by rfl),
    unlive_congr fun d hd => hSame d (by rw [← hBase]; exact hOther d (by simp [hd])),
    @unlive_congr _ _ post
      fun d hd => hSame d (by rw [← hBase]; exact hOther d (by simp [hd]))]
  congr 1
  simp only [unlive, List.map_cons, if_pos hLive]

theorem Restorable.free {boot es es' : List MemoryMap} {live : List Extent}
    {a : Extent} (h : Restorable boot es live) (ha : a ∈ live)
    (hFreed : Freed a.base es es') :
    Restorable boot es' (live.filter (·.base ≠ a.base)) := by
  have hRest : (∀ e ∈ es', 0 < e.length) ∧ Owned boot es' (live.filter (·.base ≠ a.base)) ∧
      settle (unlive ((live.filter (·.base ≠ a.base)).map Extent.base) es') = boot := by
    refine hFreed.closure
      (P := fun fs => (∀ e ∈ fs, 0 < e.length) ∧
        Owned boot fs (live.filter (·.base ≠ a.base)) ∧
        settle (unlive ((live.filter (·.base ≠ a.base)).map Extent.base) fs) = boot)
      ?_ ?_ ?_
    · intro hNone
      obtain ⟨e, he, hExt, -⟩ := h.owned.entry a ha
      exact absurd (congrArg Extent.base hExt) (hNone e he)
    · rintro pre e post rfl hBase -
      refine ⟨?_, h.owned.release ha hBase, ?_⟩
      · intro d hd
        simp only [List.mem_append, List.mem_cons] at hd
        rcases hd with hd | rfl | hd
        · exact h.nonempty d (by simp [hd])
        · exact h.nonempty e (by simp)
        · exact h.nonempty d (by simp [hd])
      · rw [settle_unlive_release ha hBase (base_ne h.owned.apart h.nonempty)]
        exact h.settled
    · rintro pre l r post hGlue ⟨hPos, hOwned, hSettled⟩
      have hJoined := hOwned.join hGlue
      refine ⟨?_, hJoined, ?_⟩
      · intro d hd
        simp only [List.mem_append, List.mem_cons] at hd
        rcases hd with hd | rfl | hd
        · exact hPos d (by simp [hd])
        · have hl := hPos l (by simp)
          have hlLow := hOwned.low l (by simp) hGlue.1
          have hrLow := hOwned.low r (by simp) hGlue.2.1
          simp only [MemoryMap.join]
          omega
        · exact hPos d (by simp [hd])
      · rw [unlive_append, unlive_cons_of_usable (e := l.join r) hGlue.1,
          settle_append, settle_cons, ← glueRight_glueRight hGlue]
        rwa [unlive_append, unlive_cons_of_usable hGlue.1,
          unlive_cons_of_usable hGlue.2.1, settle_append, settle_cons,
          settle_cons] at hSettled
  exact
    { owned := hRest.2.1
      nonempty := hRest.1
      settled := hRest.2.2
      merged := Freed.merged hFreed h.merged }

/-! ## Runs -/

theorem step_restorable {boot : List MemoryMap} (s : State) (c : Call) (s' : State)
    (h : Restorable boot s.table.entries s.live) (hStep : step s c = some s') :
    Restorable boot s'.table.entries s'.live := by
  cases c with
  | allocate size =>
      simp only [step] at hStep
      split at hStep
      · simp at hStep
      · next hSize =>
          cases hStep
          exact h.allocate (allocate_cases size s.table) (by omega)
  | free p =>
      simp only [step] at hStep
      split at hStep
      · next hLive =>
          cases hStep
          obtain ⟨a, ha, rfl⟩ := List.mem_map.mp hLive
          exact h.free ha (free_cases a.base s.table)
      · simp at hStep

/-- **Round trip.**  When a run of `allocate` and `free` leaves nothing live,
the map is entry for entry the boot map, provided no two neighbouring usable
boot entries abut. -/
theorem boot_map_restored {boot : Table}
    (hApart : PairwiseApart extentOf boot.entries)
    (hNonempty : ∀ e ∈ boot.entries, 0 < e.length)
    (hLow : ∀ e ∈ boot.entries, e.base + e.length ≤ 2 ^ 32)
    (hGap : boot.entries.IsChain fun l r =>
      l.type = 1 → r.type = 1 → l.base + l.length ≠ r.base)
    {calls : List Call} {s : State}
    (hRun : exec step { table := boot, live := [] } calls = some s)
    (hNone : s.live = []) :
    s.table.entry = boot.entry ∧ ∀ k < boot.entry, s.table.map k = boot.map k := by
  have hMerged : Merged boot.entries := by
    refine (List.isChain_iff_forall_rel_of_append_cons_cons).mpr ?_
    intro l r pre post hSplit hGlue
    have hl := hLow l (by simp [hSplit])
    refine (List.isChain_iff_forall_rel_of_append_cons_cons).mp hGap hSplit
      hGlue.1 hGlue.2.1 ?_
    rw [← hGlue.2.2, MemoryMap.limit, Nat.mod_eq_of_lt (by omega)]
  have hStart : Restorable boot.entries boot.entries [] :=
    { owned := Owned.boot hApart fun e he _ => hLow e he
      nonempty := hNonempty
      settled := by simpa [unlive] using settle_of_merged hMerged
      merged := hMerged }
  have h := exec_invariant
    (I := fun s => Restorable boot.entries s.table.entries s.live)
    step_restorable hStart hRun
  have hSettled := h.settled
  rw [hNone] at hSettled
  have hEntries : s.table.entries = boot.entries := by
    rw [← hSettled]
    simpa [unlive] using (settle_of_merged h.merged).symm
  have hCells := Table.entries_eq_iff.mp hEntries
  refine ⟨by simpa using hCells.1, fun k hk => ?_⟩
  have hGet := congrArg (fun es => es[k]?) hEntries
  have hLen : s.table.entry = boot.entry := by simpa using hCells.1
  simpa [Table.entries, hk, hLen] using hGet

/-- Three allocations freed out of order. -/
theorem boot_map_restored_pcMap :
    ∃ s, exec step { table := pcMap, live := [] }
        [.allocate 4096, .allocate 512, .allocate 4096, .free 0x101000,
          .free 0x100000, .free 0x101200] = some s ∧
      s.table.entry = pcMap.entry ∧
        ∀ k < pcMap.entry, s.table.map k = pcMap.map k := by
  have hLive : (exec step { table := pcMap, live := [] }
      [.allocate 4096, .allocate 512, .allocate 4096, .free 0x101000,
        .free 0x100000, .free 0x101200]).map State.live = some [] := by decide
  obtain ⟨s, hRun, hs⟩ := Option.map_eq_some_iff.mp hLive
  exact ⟨s, hRun, boot_map_restored (by decide) (by decide) (by decide)
    (by decide) hRun hs⟩

end MiniKernel.Ports.PmmRoundTrip

import MiniKernel.Ports.KmallocTiling

/-!
# Runs of the heap

A run is a sequence of `kmalloc`s, `kfree`s of any address, and writes of
callers into the payloads they hold.  The pages `allocate_page` returns come
with each call; that they are fresh is the only assumption, and it is part
of the step.

Two results.  `blocks_apart` holds of every run: the list ends, blocks that
are listed or held never overlap, and no held address is handed out again.
`heap_bytes_kept` says that the listed blocks account for every byte of every
page, and it holds of the runs whose appended pages are all linked behind the
last block; the module ends with a short run that is not one of these.
-/

namespace MiniKernel.Ports.KmallocRuns

open MiniKernel.Verified.ByteMemory
open MiniKernel.Verified.Extents
open MiniKernel.Verified.Links
open MiniKernel.Verified.Trace
open MiniKernel.Ports.Kmalloc
open MiniKernel.Ports.KmallocTiling

/-- The pages obtained so far and the ones `allocate_page` will return next. -/
structure Supply where
  obtained : List Nat
  pending : List Nat
  deriving Repr, DecidableEq

/-- `allocate_page` as the heap sees it: the next page, if it is fresh. -/
def drawPage (_flag : Nat) (s : Supply) : Option (Nat × Supply) :=
  match s.pending with
  | [] => none
  | page :: rest =>
      if Fresh s.obtained page then some (page, ⟨page :: s.obtained, rest⟩) else none

/-- Every held address is the payload of a block that the best-fit loop
cannot choose. -/
def HeldBlocks (m : Mem) (listed lost held : List Nat) : Prop :=
  ∀ p ∈ held, p < 2 ^ 32 ∧ ∃ b ∈ listed ++ lost,
    p = b + sizeofBlock ∧ (b ∈ listed → (blockAt m b).type = 2)

/-- The heap invariant. -/
structure HeapInv (h : Heap) (pages held listed lost : List Nat) : Prop where
  layout : Layout h pages listed lost
  held : HeldBlocks h.mem listed lost held

variable {h : Heap} {pages held listed lost : List Nat}

/-! ## The stages of `kmalloc` -/

/-- Membership after a block was linked in behind `c`. -/
theorem mem_link {xs ys : List Nat} {b c x : Nat} :
    b ∈ xs ++ c :: x :: ys ↔ b = x ∨ b ∈ xs ++ c :: ys := by
  simp only [List.mem_append, List.mem_cons]
  tauto

/-- Cutting the list behind `c` drops no block, it only moves some. -/
theorem mem_cut {xs ys zs : List Nat} {b c x : Nat} :
    b ∈ (xs ++ [c, x]) ++ (ys ++ zs) ↔ b = x ∨ b ∈ (xs ++ c :: ys) ++ zs := by
  simp only [List.mem_append, List.mem_cons, List.not_mem_nil, or_false]
  tauto

theorem mem_of_mem_front {xs ys : List Nat} {b c x : Nat} (hb : b ∈ xs ++ [c, x]) :
    b = x ∨ b ∈ xs ++ c :: ys := by
  simp only [List.mem_append, List.mem_cons, List.not_mem_nil, or_false] at hb ⊢
  tauto

theorem drawPage_cases {flag page : Nat} {s s' : Supply}
    (hDraw : drawPage flag s = some (page, s')) :
    Fresh s.obtained page ∧ s'.obtained = page :: s.obtained := by
  unfold drawPage at hDraw
  split at hDraw
  · simp at hDraw
  · split at hDraw
    · next hFresh =>
        cases hDraw
        exact ⟨hFresh, rfl⟩
    · simp at hDraw

/-- Callers keep their blocks when no block they hold is touched. -/
theorem HeldBlocks.mono {m m' : Mem} {listed' lost' : List Nat}
    (hH : HeldBlocks m listed lost held)
    (hOld : ∀ b ∈ listed ++ lost, b ∈ listed' ++ lost')
    (hType : ∀ b ∈ listed ++ lost, b ∈ listed' → b ∈ listed ∧
      ((blockAt m b).type = 2 → (blockAt m' b).type = 2)) :
    HeldBlocks m' listed' lost' held := by
  intro p hp
  obtain ⟨hRange, b, hb, hEq, hTaken⟩ := hH p hp
  refine ⟨hRange, b, hOld b hb, hEq, fun hb' => ?_⟩
  obtain ⟨hIn, hKeep⟩ := hType b hb hb'
  exact hKeep (hTaken hIn)

/-- A block the loop may choose is in nobody's hands. -/
theorem HeapInv.not_held (hI : HeapInv h pages held listed lost) {b : Nat}
    (hb : b ∈ listed) (hFree : (blockAt h.mem b).type = 1) : b + sizeofBlock ∉ held := by
  intro hp
  obtain ⟨-, c, -, hEq, hTaken⟩ := hI.held _ hp
  have hc : c = b := by omega
  subst hc
  have := hTaken hb
  omega

theorem HeapInv.first {flag : Nat} {h' : Heap} {s s' : Supply}
    (hI : HeapInv h s.obtained held listed lost)
    (hFirst : firstPage drawPage flag h s = some (h', s')) :
    ∃ listed', HeapInv h' s'.obtained held listed' lost ∧ h'.heapHead ≠ 0 ∧
      listed ⊆ listed' ∧
      (h' = h ∧ listed' = listed ∨ h.heapHead = 0 ∧ h'.next h'.currentBlock = 0) := by
  unfold firstPage at hFirst
  split at hFirst
  · next hEmpty =>
      obtain ⟨⟨page, s₁⟩, hDraw, hEq⟩ := Option.map_eq_some_iff.mp hFirst
      cases hEq
      obtain ⟨hFresh, hObtained⟩ := drawPage_cases hDraw
      have hListed : listed = [] :=
        hI.layout.linked.unique (hEmpty ▸ (linked_nil.mpr rfl : Linked h.next 0 []))
      subst hListed
      refine ⟨[page], ⟨hObtained ▸ hI.layout.first hEmpty hFresh, ?_⟩, hFresh.1, by simp,
        Or.inr ⟨hEmpty, ?_⟩⟩
      · apply hI.held.mono
        · exact fun b hb => by simpa using Or.inr hb
        · intro b hb hPage
          rw [List.mem_singleton] at hPage
          have hOut := hI.layout.outside hFresh hb
          unfold pageSize sizeofBlock at hOut
          omega
      · unfold Heap.next
        rw [blockAt_initPage]
  · next hNonzero =>
      cases hFirst
      exact ⟨listed, hI, hNonzero, List.Subset.refl _, Or.inl ⟨rfl, rfl⟩⟩

theorem HeapInv.append {flag page : Nat} {h' : Heap} {s s' : Supply}
    (hI : HeapInv h s.obtained held listed lost) (hHead : h.heapHead ≠ 0)
    (hAppend : appendPage drawPage flag h s = some (page, h', s')) :
    ∃ listed' lost', HeapInv h' s'.obtained held listed' lost' ∧ page ∈ listed' ∧
      blockAt h'.mem page = ⟨4087, 1, 0⟩ ∧
      (h.next h.currentBlock = 0 → lost' = lost ∧ listed ⊆ listed') := by
  unfold appendPage at hAppend
  obtain ⟨⟨q, s₁⟩, hDraw, hEq⟩ := Option.map_eq_some_iff.mp hAppend
  cases hEq
  obtain ⟨hFresh, hObtained⟩ := drawPage_cases hDraw
  have hCurrent := hI.layout.current hHead
  obtain ⟨xs, ys, rfl⟩ := List.append_of_mem hCurrent
  obtain ⟨hNew, hCur, hOther⟩ := hI.layout.append_headers hFresh hCurrent
  refine ⟨_, _, ⟨hObtained ▸ hI.layout.append hFresh, ?_⟩, by simp, hNew, ?_⟩
  · apply hI.held.mono
    · exact fun b hb => mem_cut.mpr (Or.inr hb)
    · intro b hb hb'
      have hne : b ≠ q := by
        rintro rfl
        have hOut := hI.layout.outside hFresh hb
        unfold pageSize sizeofBlock at hOut
        omega
      refine ⟨(mem_of_mem_front hb').resolve_left hne, fun hTaken => ?_⟩
      by_cases hEq : b = h.currentBlock
      · rw [hEq, hCur]
        exact hEq ▸ hTaken
      · rw [hOther b hb hEq]
        exact hTaken
  · intro hLast
    have hTail : Linked h.next h.currentBlock (h.currentBlock :: ys) :=
      hI.layout.linked.suffix
    have hys : ys = [] := hTail.2.2.unique (hLast ▸ (linked_nil.mpr rfl : Linked h.next 0 []))
    subst hys
    exact ⟨by simp, fun b hb => mem_link.mpr (Or.inr hb)⟩

theorem HeapInv.choose {flag size best : Nat} {h' : Heap} {s s' : Supply}
    (hI : HeapInv h s.obtained held listed lost) (hHead : h.heapHead ≠ 0)
    (hSize : 0 < size) (hChoose : chooseBlock drawPage flag size h s = some (best, h', s')) :
    ∃ listed' lost', HeapInv h' s'.obtained held listed' lost' ∧ best ∈ listed' ∧
      (blockAt h'.mem best).type = 1 ∧ 0 < (blockAt h'.mem best).size ∧
      (((∀ b ∈ listed, ¬(blockAt h.mem b).Fits size) → h.next h.currentBlock = 0) →
        lost' = lost ∧ listed ⊆ listed') := by
  unfold chooseBlock at hChoose
  obtain ⟨found, hFound, hCase⟩ := bestFit_spec size hI.layout.linked hI.layout.short
  rw [hFound, Option.bind_some] at hChoose
  rcases hCase with ⟨rfl, hNone⟩ | ⟨hNonzero, hIn, hFits⟩
  · rw [if_pos rfl] at hChoose
    obtain ⟨listed', lost', hI', hMem, hHeader, hKeep⟩ := hI.append hHead hChoose
    refine ⟨listed', lost', hI', hMem, by rw [hHeader], by rw [hHeader]; decide, ?_⟩
    exact fun hLast => hKeep (hLast hNone)
  · rw [if_neg hNonzero] at hChoose
    cases hChoose
    exact ⟨listed, lost, hI, hIn, hFits.1, Nat.lt_of_lt_of_le hSize hFits.2,
      fun _ => ⟨rfl, List.Subset.refl _⟩⟩

theorem HeapInv.take {best : Nat} (size : Nat)
    (hI : HeapInv h pages held listed lost) (hBest : best ∈ listed)
    (hPos : 0 < (blockAt h.mem best).size) :
    ∃ listed', HeapInv { h with mem := takeBlock h.mem best size } pages
        ((best + sizeofBlock) :: held) listed' lost ∧
      listed ⊆ listed' ∧ best + sizeofBlock < 2 ^ 32 := by
  have hIn : best ∈ listed ++ lost := List.mem_append_left lost hBest
  have hEnd := hI.layout.end_le hIn
  have hAddr : best + sizeofBlock < 2 ^ 32 := by omega
  by_cases hRoom : size + sizeofBlock ≤ (blockAt h.mem best).size
  · obtain ⟨xs, ys, rfl⟩ := List.append_of_mem hBest
    obtain ⟨hL, hNotIn, hTaken, hOther⟩ := hI.layout.split hRoom
    refine ⟨_, ⟨hL, ?_⟩, ?_, hAddr⟩
    · intro p hp
      rcases List.mem_cons.mp hp with rfl | hp
      · exact ⟨hAddr, best, by simp, rfl, fun _ => hTaken⟩
      · refine hI.held.mono ?_ ?_ p hp
        · intro b hb
          rw [List.mem_append, mem_link]
          exact (List.mem_append.mp hb).imp Or.inr id
        · intro b hb hb'
          have hne : b ≠ best + sizeofBlock + size := fun hEq => hNotIn (hEq ▸ hb)
          refine ⟨(mem_link.mp hb').resolve_left hne, fun hOld => ?_⟩
          by_cases hEq : b = best
          · rw [hEq]
            exact hTaken
          · rw [hOther b hb hEq]
            exact hOld
    · exact fun b hb => mem_link.mpr (Or.inr hb)
  · rw [takeBlock_whole hRoom]
    refine ⟨listed, ⟨hI.layout.retype hIn (by decide), ?_⟩, List.Subset.refl _, hAddr⟩
    have hMark : (blockAt (setType h.mem best 2) best).type = 2 := by
      rw [blockAt_setType (by decide)]
    intro p hp
    rcases List.mem_cons.mp hp with rfl | hp
    · exact ⟨hAddr, best, hIn, rfl, fun _ => hMark⟩
    · refine hI.held.mono (fun b hb => hb) ?_ p hp
      intro b hb hb'
      refine ⟨hb', fun hOld => ?_⟩
      by_cases hEq : b = best
      · rw [hEq]
        exact hMark
      · rw [hI.layout.other hIn hb hEq fun x hx => setType_apart (by omega)]
        exact hOld

/-- Holding on to fewer addresses. -/
theorem HeapInv.forget {held' : List Nat} (hI : HeapInv h pages held listed lost)
    (hSub : held' ⊆ held) : HeapInv h pages held' listed lost where
  layout := hI.layout
  held p hp := hI.held p (hSub hp)

/-- If the request gets a page because no listed block fits, `current_block`
is the last block, so that nothing is cut off. -/
def AppendsAtEnd (h : Heap) (size : Nat) : Prop :=
  0 < size → size ≤ pageSize → h.heapHead ≠ 0 →
    (∀ xs, Linked h.next h.heapHead xs → ∀ b ∈ xs, ¬(blockAt h.mem b).Fits size) →
    h.next h.currentBlock = 0

/-- **`kmalloc` keeps the invariant** and returns an address nobody holds. -/
theorem HeapInv.alloc {size flag r : Nat} {h' : Heap} {s s' : Supply}
    (hI : HeapInv h s.obtained held listed lost)
    (hRun : kmalloc drawPage size flag h s = some (r, h', s')) :
    ∃ listed' lost',
      HeapInv h' s'.obtained (if r = 0 then held else r :: held) listed' lost' ∧
      r ∉ held ∧ (AppendsAtEnd h size → lost' = lost ∧ listed ⊆ listed') := by
  have hZero : 0 ∉ held := by
    intro hp
    obtain ⟨-, b, -, hEq, -⟩ := hI.held 0 hp
    unfold sizeofBlock at hEq
    omega
  unfold kmalloc at hRun
  by_cases hSize : pageSize < size ∨ size = 0
  · simp only [if_pos hSize] at hRun
    cases hRun
    exact ⟨listed, lost, by simpa using hI, hZero, fun _ => ⟨rfl, List.Subset.refl _⟩⟩
  · simp only [if_neg hSize] at hRun
    obtain ⟨⟨h₁, s₁⟩, hFirst, hRest⟩ := Option.bind_eq_some_iff.mp hRun
    obtain ⟨⟨best, h₂, s₂⟩, hChoose, hEq⟩ := Option.map_eq_some_iff.mp hRest
    obtain ⟨listed₁, hI₁, hHead₁, hSub₁, hSame⟩ := hI.first hFirst
    obtain ⟨listed₂, lost₂, hI₂, hBest, hFree, hPos, hKeep⟩ :=
      hI₁.choose hHead₁ (by omega) hChoose
    obtain ⟨listed₃, hI₃, hSub₃, hAddr⟩ := hI₂.take size hBest hPos
    rw [Nat.mod_eq_of_lt hAddr] at hEq
    cases hEq
    refine ⟨listed₃, lost₂, ?_, hI₂.not_held hBest hFree, fun hLast => ?_⟩
    · rw [if_neg (by unfold sizeofBlock; omega)]
      exact hI₃
    · have hEnds : (∀ b ∈ listed₁, ¬(blockAt h₁.mem b).Fits size) →
          h₁.next h₁.currentBlock = 0 := by
        intro hNone
        rcases hSame with ⟨rfl, rfl⟩ | ⟨-, hNext⟩
        · exact hLast (by omega) (by omega) hHead₁ fun xs hxs =>
            hI₁.layout.linked.unique hxs ▸ hNone
        · exact hNext
      obtain ⟨hLost, hSub₂⟩ := hKeep hEnds
      exact ⟨hLost, fun b hb => hSub₃ (hSub₂ (hSub₁ hb))⟩

/-! ## `kfree` -/

/-- `kfree` ends; it marks the block with that user address, if one is listed. -/
theorem kfree_spec (hL : Layout h pages listed lost) (addr : Nat) :
    (kfree addr h = some h ∧ ∀ b ∈ listed, userAddr b ≠ addr) ∨
      ∃ b ∈ listed, userAddr b = addr ∧
        kfree addr h = some { h with mem := setType h.mem b 1 } := by
  have hSeek : seek h.next (fun b => userAddr b == addr) 0 addresses h.heapHead =
      some ((listed.find? fun b => userAddr b == addr).getD 0) := by
    apply Linked.seek_eq
    · exact hL.linked
    · exact hL.short
  unfold kfree
  rw [hSeek]
  cases hFind : listed.find? (fun b => userAddr b == addr) with
  | none =>
      left
      rw [List.find?_eq_none] at hFind
      exact ⟨rfl, fun b hb hEq => hFind b hb (by simpa using hEq)⟩
  | some b =>
      have hb := List.mem_of_find?_eq_some hFind
      have hEq : userAddr b = addr := by simpa using List.find?_some hFind
      refine Or.inr ⟨b, hb, hEq, ?_⟩
      simp [hL.linked.ne_zero b hb]

/-- **`kfree` keeps the invariant**, whatever the address. -/
theorem HeapInv.release {addr : Nat} {h' : Heap}
    (hI : HeapInv h pages held listed lost) (hRun : kfree addr h = some h') :
    HeapInv h' pages (held.filter (· ≠ addr)) listed lost := by
  rcases kfree_spec hI.layout addr with ⟨hNone, -⟩ | ⟨b, hb, hAddr, hMark⟩
  · cases hNone.symm.trans hRun
    exact hI.forget (List.filter_subset_self _)
  · cases hMark.symm.trans hRun
    have hIn : b ∈ listed ++ lost := List.mem_append_left lost hb
    refine ⟨hI.layout.retype hIn (by decide), ?_⟩
    intro p hp
    rw [List.mem_filter] at hp
    obtain ⟨hRange, c, hc, hEq, hTaken⟩ := hI.held p hp.1
    refine ⟨hRange, c, hc, hEq, fun hListed => ?_⟩
    have hne : c ≠ b := by
      rintro rfl
      refine of_decide_eq_true hp.2 ?_
      rw [← hAddr, hEq, userAddr, Nat.mod_eq_of_lt (hEq ▸ hRange)]
    rw [hI.layout.other hIn hc hne fun x hx => setType_apart (by omega)]
    exact hTaken hListed

/-- The block of a held address is marked free if it is listed. -/
theorem HeapInv.release_marks (hI : HeapInv h pages held listed []) {p : Nat}
    (hp : p ∈ held) :
    ∃ b h', p = b + sizeofBlock ∧ b ∈ listed ∧ kfree p h = some h' ∧
      (blockAt h'.mem b).type = 1 := by
  obtain ⟨hRange, b, hb, hEq, -⟩ := hI.held p hp
  rw [List.append_nil] at hb
  have hUser : userAddr b = p := by
    rw [userAddr, hEq, Nat.mod_eq_of_lt (hEq ▸ hRange)]
  rcases kfree_spec hI.layout p with ⟨-, hNone⟩ | ⟨c, hc, hAddr, hMark⟩
  · exact absurd hUser (hNone b hb)
  · have hcb : c = b := by
      have hEnd := hI.layout.end_le (List.mem_append_left [] hc)
      unfold userAddr at hAddr
      unfold sizeofBlock at *
      omega
    subst hcb
    exact ⟨c, _, hEq, hb, hMark, by rw [blockAt_setType (by decide)]⟩

/-! ## Runs -/

/-- The payload a caller may use. -/
def payload (m : Mem) (p : Nat) : Extent := ⟨p, (blockAt m (p - sizeofBlock)).size⟩

inductive Event
  | kmalloc (size flag : Nat) (pages : List Nat)
  | kfree (addr : Nat)
  | write (addr : Nat) (value : UInt8)

/-- The heap, its pages, and the addresses returned and not freed since. -/
structure State where
  heap : Heap
  pages : List Nat
  held : List Nat

/-- One event.  Pages are fresh, and a write goes to a held payload. -/
def step (s : State) : Event → Option State
  | .kmalloc size flag pages =>
      (kmalloc drawPage size flag s.heap ⟨s.pages, pages⟩).map fun r =>
        { heap := r.2.1
          pages := r.2.2.obtained
          held := if r.1 = 0 then s.held else r.1 :: s.held }
  | .kfree addr =>
      (kfree addr s.heap).map fun h =>
        { s with heap := h, held := s.held.filter (· ≠ addr) }
  | .write addr value =>
      if s.held.any fun p => (payload s.heap.mem p).Has addr then
        some { s with heap.mem := setByte s.heap.mem addr value }
      else none

/-- The heap before its first use, whatever memory holds. -/
def start (mem : Mem) : State where
  heap := { mem := mem, heapHead := 0, currentBlock := 0 }
  pages := []
  held := []

/-- The invariant of a run with the lists it carries along. -/
def Owns (s : State) (listed lost : List Nat) : Prop :=
  HeapInv s.heap s.pages s.held listed lost

theorem start_owns (mem : Mem) : Owns (start mem) [] [] where
  layout :=
    { linked := rfl
      current := fun h0 => absurd rfl h0
      tiling := Tiling.nil
      range := by simp [start] }
  held := by simp [HeldBlocks, start]

/-- A write into a held payload touches no header. -/
theorem HeapInv.write (hI : HeapInv h pages held listed lost) {p addr : Nat}
    (value : UInt8) (hp : p ∈ held) (hHas : (payload h.mem p).Has addr) :
    HeapInv { h with mem := setByte h.mem addr value } pages held listed lost := by
  obtain ⟨-, b, hb, hEq, -⟩ := hI.held p hp
  have hSame : ∀ c ∈ listed ++ lost,
      blockAt (setByte h.mem addr value) c = blockAt h.mem c := by
    intro c hc
    have hpb : p - sizeofBlock = b := by omega
    unfold payload Extent.Has at hHas
    simp only [hpb] at hHas
    by_cases hcb : c = b
    · subst hcb
      exact blockAt_congr fun x hLow hHigh => setByte_ne _ (by omega)
    · exact hI.layout.other hb hc hcb fun x hx => setByte_ne _ (by omega)
  refine ⟨hI.layout.congr ?_ ?_, ?_⟩
  · exact fun c hc => by rw [hSame c hc]
  · exact fun c hc => by rw [hSame c (List.mem_append_left lost hc)]
  · refine hI.held.mono (fun b hb => hb) fun c hc hListed => ⟨hListed, ?_⟩
    rw [hSame c hc]
    exact id

/-- The condition under which an event loses no block. -/
def KeepsBlocks (s : State) : Event → Prop
  | .kmalloc size _ _ => AppendsAtEnd s.heap size
  | _ => True

/-- **One event keeps the invariant**; a block drops off the list only in a
`kmalloc` that appends a page elsewhere than at the end. -/
theorem step_owns {s s' : State} {e : Event} {listed lost : List Nat}
    (hI : Owns s listed lost) (hStep : step s e = some s') :
    ∃ listed' lost', Owns s' listed' lost' ∧
      (KeepsBlocks s e → lost' = lost ∧ listed ⊆ listed') := by
  cases e with
  | kmalloc size flag pages =>
      obtain ⟨⟨r, h', sup⟩, hRun, rfl⟩ := Option.map_eq_some_iff.mp hStep
      obtain ⟨listed', lost', hI', -, hKeep⟩ :=
        HeapInv.alloc (s := ⟨s.pages, pages⟩) hI hRun
      exact ⟨listed', lost', hI', hKeep⟩
  | kfree addr =>
      obtain ⟨h', hRun, rfl⟩ := Option.map_eq_some_iff.mp hStep
      exact ⟨listed, lost, HeapInv.release hI hRun, fun _ => ⟨rfl, List.Subset.refl _⟩⟩
  | write addr value =>
      simp only [step] at hStep
      split at hStep
      · next hAny =>
          cases hStep
          obtain ⟨p, hp, hHas⟩ := List.any_eq_true.mp hAny
          exact ⟨listed, lost, HeapInv.write hI value hp (of_decide_eq_true hHas),
            fun _ => ⟨rfl, List.Subset.refl _⟩⟩
      · simp at hStep

theorem exec_owns {mem : Mem} {events : List Event} {s : State}
    (hRun : exec step (start mem) events = some s) : ∃ listed lost, Owns s listed lost := by
  apply exec_invariant (I := fun s => ∃ listed lost, Owns s listed lost) _ _ hRun
  · rintro s e s' ⟨listed, lost, hI⟩ hStep
    obtain ⟨listed', lost', hI', -⟩ := step_owns hI hStep
    exact ⟨listed', lost', hI'⟩
  · exact ⟨[], [], start_owns mem⟩

/-- The block is on the list or in a caller's hands. -/
def InUse (listed held : List Nat) (b : Nat) : Prop :=
  b ∈ listed ∨ b + sizeofBlock ∈ held

theorem HeapInv.inUse (hI : HeapInv h pages held listed lost) {b : Nat}
    (hb : InUse listed held b) : b ∈ listed ++ lost := by
  rcases hb with hb | hb
  · exact List.mem_append_left lost hb
  · obtain ⟨-, c, hc, hEq, -⟩ := hI.held _ hb
    have hcb : c = b := by omega
    exact hcb ▸ hc

/-- `kmalloc` returns whenever the pages it needs are there: one for an empty
heap, one more when no block fits. -/
theorem HeapInv.alloc_returns (hI : HeapInv h pages held listed lost) {p q : Nat}
    (hp : Fresh pages p) (hq : Fresh (p :: pages) q) (size flag : Nat) :
    (kmalloc drawPage size flag h ⟨pages, [p, q]⟩).isSome := by
  have hFresh : ∀ page, drawPage page ⟨pages, [p, q]⟩ = some (p, ⟨p :: pages, [q]⟩) :=
    fun _ => if_pos hp
  have hFresh' : ∀ page, drawPage page ⟨p :: pages, [q]⟩ = some (q, ⟨q :: p :: pages, []⟩) :=
    fun _ => if_pos hq
  -- the page that may be needed when no block fits is there in both cases
  have hChoose : ∀ fl (h' : Heap) s' listed', HeapInv h' s'.obtained held listed' lost →
      (drawPage fl s').isSome → (chooseBlock drawPage fl size h' s').isSome := by
    intro fl h' s' listed' hI' hDraw
    obtain ⟨found, hFound, -⟩ := bestFit_spec size hI'.layout.linked hI'.layout.short
    unfold chooseBlock appendPage
    rw [hFound, Option.bind_some]
    split
    · simpa using hDraw
    · rfl
  unfold kmalloc
  by_cases hSize : pageSize < size ∨ size = 0
  · simp only [if_pos hSize, Option.isSome_some]
  · simp only [if_neg hSize]
    generalize (if flag = 0 then presentWrite else flag) = fl
    by_cases hEmpty : h.heapHead = 0
    · have hFirst : firstPage drawPage fl h ⟨pages, [p, q]⟩ =
          some ({ mem := initPage h.mem p, heapHead := p, currentBlock := p },
            ⟨p :: pages, [q]⟩) := by
        unfold firstPage
        rw [if_pos hEmpty, hFresh, Option.map_some]
      obtain ⟨listed', hI', -⟩ := HeapInv.first (s := ⟨pages, [p, q]⟩) hI hFirst
      rw [hFirst, Option.bind_some, Option.isSome_map]
      exact hChoose _ _ _ listed' hI' (by rw [hFresh', Option.isSome_some])
    · have hFirst : firstPage drawPage fl h ⟨pages, [p, q]⟩ =
          some (h, ⟨pages, [p, q]⟩) := by
        unfold firstPage
        exact if_neg hEmpty
      rw [hFirst, Option.bind_some, Option.isSome_map]
      exact hChoose _ _ _ listed hI (by rw [hFresh, Option.isSome_some])

/-- **Heap safety.**  After every run the list from `heap_head` ends and has
no cycle; the blocks that are listed or held are pairwise apart, each inside
one page of the heap; and `kmalloc`, which returns whenever it gets its pages,
never returns an address that is still held. -/
theorem blocks_apart {mem : Mem} {events : List Event} {s : State}
    (hRun : exec step (start mem) events = some s) :
    ∃ listed, Linked s.heap.next s.heap.heapHead listed ∧ listed.Nodup ∧
      (∀ p ∈ s.held, ∃ b, p = b + sizeofBlock) ∧
      (∀ b c, InUse listed s.held b → InUse listed s.held c → b ≠ c →
        (blockExtent s.heap.mem b).Apart (blockExtent s.heap.mem c)) ∧
      (∀ b, InUse listed s.held b →
        ∃ page ∈ s.pages, (blockExtent s.heap.mem b).Within (pageExtent page)) ∧
      (∀ addr, (kfree addr s.heap).isSome) ∧
      (∀ size flag p q, Fresh s.pages p → Fresh (p :: s.pages) q →
        (kmalloc drawPage size flag s.heap ⟨s.pages, [p, q]⟩).isSome) ∧
      ∀ size flag pending r h' sup,
        kmalloc drawPage size flag s.heap ⟨s.pages, pending⟩ = some (r, h', sup) →
          r ∉ s.held := by
  obtain ⟨listed, lost, hI⟩ := exec_owns hRun
  refine ⟨listed, hI.layout.linked, hI.layout.linked.nodup, ?_, ?_, ?_, ?_, ?_, ?_⟩
  · intro p hp
    obtain ⟨-, b, -, hEq, -⟩ := hI.held p hp
    exact ⟨b, hEq⟩
  · intro b c hb hc hne
    apply Extent.apart_of_le
    have := hI.layout.side (hI.inUse hb) (hI.inUse hc) hne
    unfold blockExtent
    simp only
    omega
  · intro b hb
    obtain ⟨page, hPage, hLow, hHigh⟩ := hI.layout.inPage (hI.inUse hb)
    refine ⟨page, hPage, hLow, ?_⟩
    unfold blockExtent pageExtent
    simp only
    omega
  · intro addr
    rcases kfree_spec hI.layout addr with ⟨hNone, -⟩ | ⟨b, -, -, hMark⟩
    · rw [hNone, Option.isSome_some]
    · rw [hMark, Option.isSome_some]
  · exact fun size flag p q hp hq => HeapInv.alloc_returns hI hp hq size flag
  · intro size flag pending r h' sup hCall
    obtain ⟨-, -, -, hNot, -⟩ := HeapInv.alloc (s := ⟨s.pages, pending⟩) hI hCall
    exact hNot

/-- Two pages, with one block freed again and the other written to. -/
theorem blocks_apart_twoPages :
    ∃ s, exec step (start fun _ => 0)
        [.kmalloc 100 0 [0x100000], .kmalloc 4000 0 [0x200000], .kfree 0x100009,
          .write 0x200009 7] = some s ∧
      s.held = [0x200009] ∧
      ∃ listed, Linked s.heap.next s.heap.heapHead listed ∧ listed.Nodup ∧
        ∀ b c, InUse listed s.held b → InUse listed s.held c → b ≠ c →
          (blockExtent s.heap.mem b).Apart (blockExtent s.heap.mem c) := by
  have hHeld : (exec step (start fun _ => 0)
      [.kmalloc 100 0 [0x100000], .kmalloc 4000 0 [0x200000], .kfree 0x100009,
        .write 0x200009 7]).map State.held = some [0x200009] := by decide +kernel
  obtain ⟨s, hRun, hs⟩ := Option.map_eq_some_iff.mp hHeld
  obtain ⟨listed, hLinked, hNodup, -, hApart, -⟩ := blocks_apart hRun
  exact ⟨s, hRun, hs, listed, hLinked, hNodup, hApart⟩

/-- The total of header and payload over a list of blocks. -/
def bytes (m : Mem) (blocks : List Nat) : Nat :=
  (blocks.map fun b => (blockAt m b).size + sizeofBlock).sum

theorem HeapInv.bytes_listed (hI : HeapInv h pages held listed []) :
    bytes h.mem listed = pageSize * pages.length := by
  have hTotal := hI.layout.tiling.total
  rw [List.append_nil, List.map_map, List.map_map] at hTotal
  have hPages : (pages.map (Extent.length ∘ pageExtent)).sum = pageSize * pages.length := by
    have hConst : pages.map (Extent.length ∘ pageExtent) =
        List.replicate pages.length pageSize := by
      rw [← List.map_const']
      rfl
    rw [hConst, List.sum_replicate, Nat.nsmul_eq_mul, Nat.mul_comm]
  rw [← hPages, ← hTotal, bytes]
  congr 1
  apply List.map_congr_left
  intro b _
  exact Nat.add_comm _ _

/-- **No heap byte is lost** while pages are appended at the end of the list
only.  In every such run the listed blocks tile the pages of the heap, every
block that was ever on the list still is, and `kfree` of any held address
marks its block free. -/
theorem heap_bytes_kept {mem : Mem} {events₁ events₂ : List Event} {s₁ s₂ : State}
    (hRun₁ : exec step (start mem) events₁ = some s₁)
    (hRun₂ : exec step s₁ events₂ = some s₂)
    (hKeep₁ : Meets step KeepsBlocks (start mem) events₁)
    (hKeep₂ : Meets step KeepsBlocks s₁ events₂) :
    ∃ listed₁ listed₂, Linked s₁.heap.next s₁.heap.heapHead listed₁ ∧
      Linked s₂.heap.next s₂.heap.heapHead listed₂ ∧ listed₁ ⊆ listed₂ ∧
      bytes s₂.heap.mem listed₂ = pageSize * s₂.pages.length ∧
      Tiling (s₂.pages.map pageExtent) (listed₂.map (blockExtent s₂.heap.mem)) ∧
      ∀ p ∈ s₂.held, ∃ b h', p = b + sizeofBlock ∧ b ∈ listed₂ ∧
        kfree p s₂.heap = some h' ∧ (blockAt h'.mem b).type = 1 := by
  have hStep : ∀ (base : List Nat) s e s', (∃ listed, Owns s listed [] ∧ base ⊆ listed) →
      KeepsBlocks s e → step s e = some s' → ∃ listed, Owns s' listed [] ∧ base ⊆ listed := by
    rintro base s e s' ⟨listed, hI, hSub⟩ hKeep hStep
    obtain ⟨listed', lost', hI', hSame⟩ := step_owns hI hStep
    obtain ⟨rfl, hGrow⟩ := hSame hKeep
    exact ⟨listed', hI', fun b hb => hGrow (hSub hb)⟩
  obtain ⟨listed₁, hI₁, -⟩ := hKeep₁.invariant (hStep [])
    ⟨[], start_owns mem, List.Subset.refl _⟩ hRun₁
  obtain ⟨listed₂, hI₂, hSub⟩ := hKeep₂.invariant (hStep listed₁)
    ⟨listed₁, hI₁, List.Subset.refl _⟩ hRun₂
  refine ⟨listed₁, listed₂, hI₁.layout.linked, hI₂.layout.linked, hSub, hI₂.bytes_listed, ?_,
    fun p hp => hI₂.release_marks hp⟩
  have hTiling := hI₂.layout.tiling
  rwa [List.append_nil] at hTiling

/-- A first block, and its release as the second part of the run. -/
theorem heap_bytes_kept_onePage :
    ∃ s₁ s₂, exec step (start fun _ => 0) [.kmalloc 100 0 [0x100000]] = some s₁ ∧
      exec step s₁ [.kmalloc 200 0 [], .kfree 0x100009] = some s₂ ∧
      s₂.held = [0x100076] ∧
      ∃ listed, Linked s₂.heap.next s₂.heap.heapHead listed ∧
        bytes s₂.heap.mem listed = pageSize * s₂.pages.length := by
  have hHeld : (exec step (start fun _ => 0) [.kmalloc 100 0 [0x100000]]).map
      (fun s => (s.heap.heapHead, decide (Linked s.heap.next s.heap.heapHead
          [0x100000, 0x10006D]),
        decide ((blockAt s.heap.mem 0x10006D).type = 1 ∧
          200 ≤ (blockAt s.heap.mem 0x10006D).size),
        (exec step s [.kmalloc 200 0 [], .kfree 0x100009]).map State.held)) =
      some (0x100000, true, true, some [0x100076]) := by decide +kernel
  obtain ⟨s₁, hRun₁, hs₁⟩ := Option.map_eq_some_iff.mp hHeld
  simp only [Prod.mk.injEq, decide_eq_true_eq] at hs₁
  obtain ⟨-, hLinked, hFits, hSecond⟩ := hs₁
  obtain ⟨s₂, hRun₂, hs₂⟩ := Option.map_eq_some_iff.mp hSecond
  have hFirst : KeepsBlocks (start fun _ => 0) (.kmalloc 100 0 [0x100000]) :=
    fun _ _ h0 => absurd rfl h0
  have hNext : KeepsBlocks s₁ (.kmalloc 200 0 []) :=
    fun _ _ _ hNone => absurd hFits (hNone _ hLinked 0x10006D (by decide))
  obtain ⟨-, listed, -, hListed, -, hBytes, -⟩ := heap_bytes_kept hRun₁ hRun₂
    ⟨hFirst, fun _ _ => trivial⟩ ⟨hNext, fun _ _ => ⟨trivial, fun _ _ => trivial⟩⟩
  exact ⟨s₁, s₂, hRun₁, hRun₂, hs₂, listed, hListed, hBytes⟩

/-- The split of the first page leaves `current_block` in front of the rest,
so the second page is linked in its place: 3987 bytes and the held block at
`0x10006D` are off the list, and `kfree` of that block does nothing. -/
theorem heap_bytes_lost :
    ∃ s, exec step (start fun _ => 0)
        [.kmalloc 100 0 [0x100000], .kmalloc 200 0 [], .kmalloc 4000 0 [0x200000]] =
          some s ∧
      (∀ listed, Linked s.heap.next s.heap.heapHead listed →
        bytes s.heap.mem listed ≠ pageSize * s.pages.length) ∧
      0x10006D + sizeofBlock ∈ s.held ∧
      ∃ h', kfree (0x10006D + sizeofBlock) s.heap = some h' ∧
        (blockAt h'.mem 0x10006D).type = 2 := by
  have hView : (exec step (start fun _ => 0)
      [.kmalloc 100 0 [0x100000], .kmalloc 200 0 [], .kmalloc 4000 0 [0x200000]]).map
      (fun s => (decide (Linked s.heap.next s.heap.heapHead
          [0x100000, 0x200000, 0x200FA9]),
        bytes s.heap.mem [0x100000, 0x200000, 0x200FA9], s.pages.length, s.held,
        (kfree (0x10006D + sizeofBlock) s.heap).map fun h =>
          (blockAt h.mem 0x10006D).type)) =
      some (true, 4205, 2, [0x200009, 0x100076, 0x100009], some 2) := by decide +kernel
  obtain ⟨s, hRun, hs⟩ := Option.map_eq_some_iff.mp hView
  simp only [Prod.mk.injEq, decide_eq_true_eq] at hs
  obtain ⟨hLinked, hBytes, hPages, hHeld, hFree⟩ := hs
  refine ⟨s, hRun, fun listed hListed => ?_, ?_, Option.map_eq_some_iff.mp hFree⟩
  · rw [hListed.unique hLinked, hBytes, hPages]
    decide
  · rw [hHeld]
    decide

end MiniKernel.Ports.KmallocRuns

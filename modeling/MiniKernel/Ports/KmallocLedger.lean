import MiniKernel.Ports.KmallocRuns

/-!
# Who holds a block

The heap invariant for runs in which several callers share the heap and the
pages come from an allocator with a state of its own.  The allocator is any
one that `Provides` fresh pages.

`Ledger` is sharper than `HeapInv`: a held block is marked taken even when it
has dropped off the list, and a listed block that is not free is held.  So
what `kfree` makes free was held, or was free before.
-/

namespace MiniKernel.Ports.KmallocLedger

open MiniKernel.Verified.ByteMemory
open MiniKernel.Verified.Extents
open MiniKernel.Verified.Links
open MiniKernel.Ports.Kmalloc
open MiniKernel.Ports.KmallocTiling
open MiniKernel.Ports.KmallocRuns (payload mem_link mem_cut mem_of_mem_front)

universe u

variable {σ : Type u}

/-! ## Allocators of pages -/

/-- What the second allocator returns is what the first one returns. -/
def Refines (A B : Nat → σ → Option (Nat × σ)) : Prop :=
  ∀ flag s r, B flag s = some r → A flag s = some r

/-- From a state with the pages `pages` every page returned is fresh. -/
def Provides (A : Nat → σ → Option (Nat × σ)) (I : List Nat → σ → Prop) : Prop :=
  ∀ pages flag s page s', I pages s → A flag s = some (page, s') →
    Fresh pages page ∧ I (page :: pages) s'

variable {A B : Nat → σ → Option (Nat × σ)} {I : List Nat → σ → Prop}

theorem firstPage_refines (hAB : Refines A B) {flag : Nat} {h : Heap} {s : σ} {r : Heap × σ}
    (hRun : firstPage B flag h s = some r) : firstPage A flag h s = some r := by
  unfold firstPage at hRun ⊢
  by_cases hEmpty : h.heapHead = 0
  · rw [if_pos hEmpty] at hRun ⊢
    obtain ⟨p, hPage, rfl⟩ := Option.map_eq_some_iff.mp hRun
    rw [hAB flag s p hPage, Option.map_some]
  · rw [if_neg hEmpty] at hRun ⊢
    exact hRun

theorem chooseBlock_refines (hAB : Refines A B) {flag size : Nat} {h : Heap} {s : σ}
    {r : Nat × Heap × σ} (hRun : chooseBlock B flag size h s = some r) :
    chooseBlock A flag size h s = some r := by
  unfold chooseBlock at hRun ⊢
  obtain ⟨best, hBest, hRest⟩ := Option.bind_eq_some_iff.mp hRun
  rw [hBest, Option.bind_some]
  by_cases hNone : best = 0
  · rw [if_pos hNone] at hRest ⊢
    obtain ⟨p, hPage, rfl⟩ := Option.map_eq_some_iff.mp hRest
    rw [appendPage, hAB flag s p hPage, Option.map_some]
  · rw [if_neg hNone] at hRest ⊢
    exact hRest

/-- `kmalloc` uses nothing of its allocator but what it returns. -/
theorem kmalloc_refines (hAB : Refines A B) {size flag : Nat} {h : Heap} {s : σ}
    {r : Nat × Heap × σ} (hRun : kmalloc B size flag h s = some r) :
    kmalloc A size flag h s = some r := by
  unfold kmalloc at hRun ⊢
  by_cases hSize : pageSize < size ∨ size = 0
  · simp only [if_pos hSize] at hRun ⊢
    exact hRun
  · simp only [if_neg hSize] at hRun ⊢
    obtain ⟨f, hFirst, hRest⟩ := Option.bind_eq_some_iff.mp hRun
    obtain ⟨c, hChoose, rfl⟩ := Option.map_eq_some_iff.mp hRest
    rw [firstPage_refines hAB hFirst, Option.bind_some, chooseBlock_refines hAB hChoose,
      Option.map_some]

/-- At most one call of the allocator. -/
def Asks (A : Nat → σ → Option (Nat × σ)) (s s' : σ) : Prop :=
  s' = s ∨ ∃ flag page, A flag s = some (page, s')

/-- At most one call of the allocator, with the given flags. -/
def AsksWith (A : Nat → σ → Option (Nat × σ)) (flag : Nat) (s s' : σ) : Prop :=
  s' = s ∨ ∃ page, A flag s = some (page, s')

theorem AsksWith.asks {flag : Nat} {s s' : σ} (h : AsksWith A flag s s') : Asks A s s' :=
  h.imp_right fun ⟨page, hPage⟩ => ⟨flag, page, hPage⟩

theorem firstPage_asks {flag : Nat} {h h' : Heap} {s s' : σ}
    (hRun : firstPage A flag h s = some (h', s')) : AsksWith A flag s s' := by
  unfold firstPage at hRun
  split at hRun
  · obtain ⟨⟨page, t⟩, hPage, hEq⟩ := Option.map_eq_some_iff.mp hRun
    cases hEq
    exact Or.inr ⟨page, hPage⟩
  · cases hRun
    exact Or.inl rfl

theorem chooseBlock_asks {flag size best : Nat} {h h' : Heap} {s s' : σ}
    (hRun : chooseBlock A flag size h s = some (best, h', s')) : AsksWith A flag s s' := by
  unfold chooseBlock at hRun
  obtain ⟨found, -, hTake⟩ := Option.bind_eq_some_iff.mp hRun
  split at hTake
  · obtain ⟨⟨page, t⟩, hPage, hEq⟩ := Option.map_eq_some_iff.mp hTake
    cases hEq
    exact Or.inr ⟨page, hPage⟩
  · cases hTake
    exact Or.inl rfl

/-- `kmalloc` asks for at most two pages, with the flags it was given if any. -/
theorem kmalloc_asksWith {size flag r : Nat} {h h' : Heap} {s s' : σ}
    (hRun : kmalloc A size flag h s = some (r, h', s')) :
    ∃ s₁, AsksWith A (if flag = 0 then presentWrite else flag) s s₁ ∧
      AsksWith A (if flag = 0 then presentWrite else flag) s₁ s' := by
  unfold kmalloc at hRun
  by_cases hSize : pageSize < size ∨ size = 0
  · simp only [if_pos hSize] at hRun
    cases hRun
    exact ⟨s, Or.inl rfl, Or.inl rfl⟩
  · simp only [if_neg hSize] at hRun
    obtain ⟨⟨h₁, s₁⟩, hFirst, hRest⟩ := Option.bind_eq_some_iff.mp hRun
    obtain ⟨⟨best, h₂, s₂⟩, hChoose, hEq⟩ := Option.map_eq_some_iff.mp hRest
    cases hEq
    exact ⟨s₁, firstPage_asks hFirst, chooseBlock_asks hChoose⟩

theorem kmalloc_asks {size flag r : Nat} {h h' : Heap} {s s' : σ}
    (hRun : kmalloc A size flag h s = some (r, h', s')) : ∃ s₁, Asks A s s₁ ∧ Asks A s₁ s' := by
  obtain ⟨s₁, hFirst, hSecond⟩ := kmalloc_asksWith hRun
  exact ⟨s₁, hFirst.asks, hSecond.asks⟩

/-- What the allocator keeps `kmalloc` keeps. -/
theorem kmalloc_keeps {J : σ → Prop} {size flag r : Nat} {h h' : Heap} {s s' : σ}
    (hFlag : flag ≠ 0) (hPage : ∀ t t' page, J t → A flag t = some (page, t') → J t') (hJ : J s)
    (hRun : kmalloc A size flag h s = some (r, h', s')) : J s' := by
  obtain ⟨s₁, hFirst, hSecond⟩ := kmalloc_asksWith hRun
  rw [if_neg hFlag] at hFirst hSecond
  have hAsk : ∀ {t t'}, J t → AsksWith A flag t t' → J t' := by
    rintro t t' hT (rfl | ⟨page, hCall⟩)
    · exact hT
    · exact hPage _ _ _ hT hCall
  exact hAsk (hAsk hJ hFirst) hSecond

/-! ## The ledger -/

/-- The held blocks are taken, and the listed blocks are free or held. -/
structure Ledger (h : Heap) (pages held listed lost : List Nat) : Prop where
  layout : Layout h pages listed lost
  range : ∀ p ∈ held, p < 2 ^ 32
  block : ∀ p ∈ held, ∃ b ∈ listed ++ lost, p = b + sizeofBlock ∧ (blockAt h.mem b).type = 2
  free : ∀ b ∈ listed, (blockAt h.mem b).type = 1 ∨ b + sizeofBlock ∈ held

variable {h h' : Heap} {pages held listed lost : List Nat}

theorem ledger_start (mem : Mem) :
    Ledger { mem := mem, heapHead := 0, currentBlock := 0 } [] [] [] [] where
  layout := (KmallocRuns.start_owns mem).layout
  range := by simp
  block := by simp
  free := by simp

/-- The header of a held block. -/
theorem Ledger.taken (hL : Ledger h pages held listed lost) {p : Nat} (hp : p ∈ held) :
    (blockAt h.mem (p - sizeofBlock)).type = 2 := by
  obtain ⟨b, -, rfl, hTaken⟩ := hL.block p hp
  rw [Nat.add_sub_cancel]
  exact hTaken

/-- A free block is in nobody's hands. -/
theorem Ledger.not_held (hL : Ledger h pages held listed lost) {b : Nat}
    (hFree : (blockAt h.mem b).type = 1) : b + sizeofBlock ∉ held := by
  intro hp
  have hTaken := hL.taken hp
  rw [Nat.add_sub_cancel, hFree] at hTaken
  exact absurd hTaken (by decide)

theorem Ledger.ne_zero (hL : Ledger h pages held listed lost) : 0 ∉ held := by
  intro hp
  obtain ⟨b, -, hEq, -⟩ := hL.block 0 hp
  unfold sizeofBlock at hEq
  omega

/-- Only who is a holder matters. -/
theorem Ledger.holders (hL : Ledger h pages held listed lost) {held' : List Nat}
    (hSame : ∀ p, p ∈ held' ↔ p ∈ held) : Ledger h pages held' listed lost where
  layout := hL.layout
  range p hp := hL.range p ((hSame p).mp hp)
  block p hp := hL.block p ((hSame p).mp hp)
  free b hb := (hL.free b hb).imp_right (hSame _).mpr

/-- Holders keep their blocks while these stay taken. -/
theorem Ledger.keep (hL : Ledger h pages held listed lost) {m' : Mem} {listed' lost' : List Nat}
    (hOld : ∀ b ∈ listed ++ lost, b ∈ listed' ++ lost')
    (hType : ∀ b ∈ listed ++ lost, (blockAt h.mem b).type = 2 → (blockAt m' b).type = 2) :
    ∀ p ∈ held, ∃ b ∈ listed' ++ lost', p = b + sizeofBlock ∧ (blockAt m' b).type = 2 := by
  intro p hp
  obtain ⟨b, hb, hEq, hTaken⟩ := hL.block p hp
  exact ⟨b, hOld b hb, hEq, hType b hb hTaken⟩

/-! ## The stages of `kmalloc` -/

theorem Ledger.first (hA : Provides A I) {flag : Nat} {s s' : σ} (hI : I pages s)
    (hL : Ledger h pages held listed lost) (hFirst : firstPage A flag h s = some (h', s')) :
    ∃ pages' listed', I pages' s' ∧ Ledger h' pages' held listed' lost ∧ h'.heapHead ≠ 0 := by
  unfold firstPage at hFirst
  by_cases hEmpty : h.heapHead = 0
  · rw [if_pos hEmpty] at hFirst
    obtain ⟨⟨page, s₁⟩, hPage, hEq⟩ := Option.map_eq_some_iff.mp hFirst
    cases hEq
    obtain ⟨hFresh, hI'⟩ := hA pages flag s page _ hI hPage
    have hListed : listed = [] :=
      hL.layout.linked.unique (hEmpty ▸ (linked_nil.mpr rfl : Linked h.next 0 []))
    subst hListed
    refine ⟨page :: pages, [page], hI', ?_, hFresh.1⟩
    constructor
    · exact hL.layout.first hEmpty hFresh
    · exact hL.range
    · apply hL.keep
      · exact fun b hb => List.mem_append_right _ (by simpa using hb)
      · intro b hb hTaken
        rw [hL.layout.initPage_other hFresh hb]
        exact hTaken
    · intro b hb
      left
      rw [List.mem_singleton.mp hb, blockAt_initPage]
  · rw [if_neg hEmpty] at hFirst
    cases hFirst
    exact ⟨pages, listed, hI, hL, hEmpty⟩

theorem Ledger.append (hA : Provides A I) {flag page : Nat} {s s' : σ} (hI : I pages s)
    (hL : Ledger h pages held listed lost) (hHead : h.heapHead ≠ 0)
    (hAppend : appendPage A flag h s = some (page, h', s')) :
    ∃ pages' listed' lost', I pages' s' ∧ Ledger h' pages' held listed' lost' ∧
      page ∈ listed' ∧ blockAt h'.mem page = ⟨4087, 1, 0⟩ := by
  unfold appendPage at hAppend
  obtain ⟨⟨page, s₁⟩, hPage, hEq⟩ := Option.map_eq_some_iff.mp hAppend
  cases hEq
  obtain ⟨hFresh, hI'⟩ := hA pages flag s page _ hI hPage
  have hCurrent := hL.layout.current hHead
  obtain ⟨xs, ys, rfl⟩ := List.append_of_mem hCurrent
  obtain ⟨hNew, hCur, hOther⟩ := hL.layout.append_headers hFresh hCurrent
  have hType : ∀ b ∈ (xs ++ h.currentBlock :: ys) ++ lost,
      (blockAt (setNext (initPage h.mem page) h.currentBlock page) b).type =
        (blockAt h.mem b).type := by
    intro b hb
    by_cases hEq : b = h.currentBlock
    · rw [hEq, hCur]
    · rw [hOther b hb hEq]
  refine ⟨page :: pages, xs ++ [h.currentBlock, page], ys ++ lost, hI', ?_, by simp, hNew⟩
  constructor
  · exact hL.layout.append hFresh
  · exact hL.range
  · apply hL.keep
    · exact fun b hb => mem_cut.mpr (Or.inr hb)
    · exact fun b hb hTaken => (hType b hb).trans hTaken
  · intro b hb
    rcases mem_of_mem_front hb with rfl | hOld
    · left
      rw [hNew]
    · rw [hType b (List.mem_append_left lost hOld)]
      exact hL.free b hOld

theorem Ledger.choose (hA : Provides A I) {flag size best : Nat} {s s' : σ} (hI : I pages s)
    (hL : Ledger h pages held listed lost) (hHead : h.heapHead ≠ 0) (hSize : 0 < size)
    (hChoose : chooseBlock A flag size h s = some (best, h', s')) :
    ∃ pages' listed' lost', I pages' s' ∧ Ledger h' pages' held listed' lost' ∧
      best ∈ listed' ∧ (blockAt h'.mem best).type = 1 ∧ 0 < (blockAt h'.mem best).size := by
  unfold chooseBlock at hChoose
  obtain ⟨found, hFound, hCase⟩ := bestFit_spec size hL.layout.linked hL.layout.short
  rw [hFound, Option.bind_some] at hChoose
  rcases hCase with ⟨rfl, -⟩ | ⟨hNonzero, hIn, hFits⟩
  · rw [if_pos rfl] at hChoose
    obtain ⟨pages', listed', lost', hI', hL', hMem, hHeader⟩ := hL.append hA hI hHead hChoose
    exact ⟨pages', listed', lost', hI', hL', hMem, by rw [hHeader], by rw [hHeader]; decide⟩
  · rw [if_neg hNonzero] at hChoose
    cases hChoose
    exact ⟨pages, listed, lost, hI, hL, hIn, hFits.1, Nat.lt_of_lt_of_le hSize hFits.2⟩

theorem Ledger.take {best : Nat} (size : Nat) (hL : Ledger h pages held listed lost)
    (hBest : best ∈ listed) (hPos : 0 < (blockAt h.mem best).size) :
    best + sizeofBlock < 2 ^ 32 ∧ ∃ listed',
      Ledger { h with mem := takeBlock h.mem best size } pages ((best + sizeofBlock) :: held)
        listed' lost := by
  have hIn : best ∈ listed ++ lost := List.mem_append_left lost hBest
  have hEnd := hL.layout.end_le hIn
  have hAddr : best + sizeofBlock < 2 ^ 32 := by omega
  have hRange : ∀ p ∈ (best + sizeofBlock) :: held, p < 2 ^ 32 := by
    intro p hp
    rcases List.mem_cons.mp hp with rfl | hp
    · exact hAddr
    · exact hL.range p hp
  refine ⟨hAddr, ?_⟩
  by_cases hRoom : size + sizeofBlock ≤ (blockAt h.mem best).size
  · obtain ⟨xs, ys, rfl⟩ := List.append_of_mem hBest
    obtain ⟨hLayout, -, hTaken, hOther⟩ := hL.layout.split hRoom
    have hHeader : 0 < sizeofBlock := by decide
    obtain ⟨-, hRest, -⟩ := takeBlock_split hRoom (by omega)
    refine ⟨xs ++ best :: (best + sizeofBlock + size) :: ys, hLayout, hRange, ?_, ?_⟩
    · intro p hp
      rcases List.mem_cons.mp hp with rfl | hp
      · exact ⟨best, by simp, rfl, hTaken⟩
      · refine hL.keep (fun b hb => ?_) (fun b hb hOld => ?_) p hp
        · rw [List.mem_append, mem_link]
          exact (List.mem_append.mp hb).imp Or.inr id
        · by_cases hEq : b = best
          · rw [hEq]
            exact hTaken
          · rw [hOther b hb hEq]
            exact hOld
    · intro b hb
      rcases mem_link.mp hb with rfl | hOld
      · left
        rw [hRest]
      · by_cases hEq : b = best
        · right
          simp [hEq]
        · rw [hOther b (List.mem_append_left lost hOld) hEq]
          exact (hL.free b hOld).imp_right (List.mem_cons_of_mem _)
  · rw [takeBlock_whole hRoom]
    have hMark : (blockAt (setType h.mem best 2) best).type = 2 := by
      rw [blockAt_setType (by decide)]
    have hOther : ∀ b ∈ listed ++ lost, b ≠ best →
        blockAt (setType h.mem best 2) b = blockAt h.mem b :=
      fun b hb hne => hL.layout.other hIn hb hne fun x hx => setType_apart (by omega)
    refine ⟨listed, hL.layout.retype hIn (by decide), hRange, ?_, ?_⟩
    · intro p hp
      rcases List.mem_cons.mp hp with rfl | hp
      · exact ⟨best, hIn, rfl, hMark⟩
      · refine hL.keep (fun b hb => hb) (fun b hb hOld => ?_) p hp
        by_cases hEq : b = best
        · rw [hEq]
          exact hMark
        · rw [hOther b hb hEq]
          exact hOld
    · intro b hb
      by_cases hEq : b = best
      · right
        simp [hEq]
      · rw [hOther b (List.mem_append_left lost hb) hEq]
        exact (hL.free b hb).imp_right (List.mem_cons_of_mem _)

/-- **`kmalloc` keeps the ledger** and returns an address nobody holds. -/
theorem Ledger.alloc (hA : Provides A I) {size flag r : Nat} {s s' : σ} (hI : I pages s)
    (hL : Ledger h pages held listed lost)
    (hRun : kmalloc A size flag h s = some (r, h', s')) :
    r < 2 ^ 32 ∧ r ∉ held ∧ ∃ pages' listed' lost', I pages' s' ∧
      Ledger h' pages' (if r = 0 then held else r :: held) listed' lost' := by
  unfold kmalloc at hRun
  by_cases hSize : pageSize < size ∨ size = 0
  · simp only [if_pos hSize] at hRun
    cases hRun
    exact ⟨by decide, hL.ne_zero, pages, listed, lost, hI, hL⟩
  · simp only [if_neg hSize] at hRun
    obtain ⟨⟨h₁, s₁⟩, hFirst, hRest⟩ := Option.bind_eq_some_iff.mp hRun
    obtain ⟨⟨best, h₂, s₂⟩, hChoose, hEq⟩ := Option.map_eq_some_iff.mp hRest
    obtain ⟨pages₁, listed₁, hI₁, hL₁, hHead₁⟩ := hL.first hA hI hFirst
    obtain ⟨pages₂, listed₂, lost₂, hI₂, hL₂, hBest, hFree, hPos⟩ :=
      hL₁.choose hA hI₁ hHead₁ (by omega) hChoose
    obtain ⟨hAddr, listed₃, hL₃⟩ := hL₂.take size hBest hPos
    rw [Nat.mod_eq_of_lt hAddr] at hEq
    cases hEq
    refine ⟨hAddr, hL₂.not_held hFree, pages₂, listed₃, lost₂, hI₂, ?_⟩
    rw [if_neg (by unfold sizeofBlock; omega)]
    exact hL₃

/-! ## `kfree` and writes -/

/-- The block `kfree` marks: it was held under that address, or free already. -/
theorem Ledger.seek_spec (hL : Ledger h pages held listed lost) (addr : Nat) :
    ∃ b, seek h.next (fun b => userAddr b == addr) 0 addresses h.heapHead = some b ∧
      (b = 0 ∧ (∀ c ∈ listed, userAddr c ≠ addr) ∨
        b ≠ 0 ∧ b ∈ listed ∧ userAddr b = addr) := by
  have hSeek : seek h.next (fun b => userAddr b == addr) 0 addresses h.heapHead =
      some ((listed.find? fun b => userAddr b == addr).getD 0) := by
    apply Linked.seek_eq
    · exact hL.layout.linked
    · exact hL.layout.short
  refine ⟨_, hSeek, ?_⟩
  cases hFind : listed.find? (fun b => userAddr b == addr) with
  | none =>
      left
      rw [List.find?_eq_none] at hFind
      exact ⟨rfl, fun b hb hEq => hFind b hb (by simpa using hEq)⟩
  | some b =>
      right
      have hb := List.mem_of_find?_eq_some hFind
      exact ⟨hL.layout.linked.ne_zero b hb, hb, by simpa using List.find?_some hFind⟩

/-- **`kfree` keeps the ledger**, whatever the address. -/
theorem Ledger.release {addr : Nat} (hL : Ledger h pages held listed lost)
    (hRun : kfree addr h = some h') :
    Ledger h' pages (held.filter (· ≠ addr)) listed lost := by
  obtain ⟨b, hSeek, hCase⟩ := hL.seek_spec addr
  unfold kfree at hRun
  rw [hSeek, Option.map_some, Option.some.injEq] at hRun
  have hSub : ∀ p ∈ held.filter (· ≠ addr), p ∈ held := fun p hp => (List.mem_filter.mp hp).1
  rcases hCase with ⟨hNone, hOff⟩ | ⟨hNonzero, hb, hAddr⟩
  · rw [if_pos hNone] at hRun
    subst hRun
    refine ⟨hL.layout, fun p hp => hL.range p (hSub p hp), fun p hp => hL.block p (hSub p hp), ?_⟩
    intro c hc
    refine (hL.free c hc).imp_right fun hp => List.mem_filter.mpr ⟨hp, decide_eq_true ?_⟩
    rintro rfl
    exact hOff c hc (Nat.mod_eq_of_lt (hL.range _ hp))
  · rw [if_neg hNonzero] at hRun
    subst hRun
    have hIn : b ∈ listed ++ lost := List.mem_append_left lost hb
    have hOther : ∀ c ∈ listed ++ lost, c ≠ b →
        blockAt (setType h.mem b 1) c = blockAt h.mem c :=
      fun c hc hne => hL.layout.other hIn hc hne fun x hx => setType_apart (by omega)
    refine ⟨hL.layout.retype hIn (by decide), fun p hp => hL.range p (hSub p hp), ?_, ?_⟩
    · intro p hp
      obtain ⟨c, hc, hEq, hTaken⟩ := hL.block p (hSub p hp)
      have hne : c ≠ b := by
        rintro rfl
        have hKept : p ≠ addr := of_decide_eq_true (List.mem_filter.mp hp).2
        rw [← hAddr, userAddr, ← hEq] at hKept
        exact hKept (Nat.mod_eq_of_lt (hL.range p (hSub p hp))).symm
      refine ⟨c, hc, hEq, ?_⟩
      rw [hOther c hc hne]
      exact hTaken
    · intro c hc
      by_cases hEq : c = b
      · left
        rw [hEq, blockAt_setType (by decide)]
      · rw [hOther c (List.mem_append_left lost hc) hEq]
        refine (hL.free c hc).imp_right fun hp => List.mem_filter.mpr ⟨hp, decide_eq_true ?_⟩
        rintro rfl
        have hEnd := hL.layout.end_le hIn
        have hRange := hL.range _ hp
        unfold userAddr at hAddr
        unfold sizeofBlock at *
        omega

/-- A block that `kfree` finds and that is not free is held under the address. -/
theorem Ledger.holder {addr b : Nat} (hL : Ledger h pages held listed lost)
    (hSeek : seek h.next (fun b => userAddr b == addr) 0 addresses h.heapHead = some b)
    (hNonzero : b ≠ 0) (hTaken : (blockAt h.mem b).type ≠ 1) : addr ∈ held := by
  obtain ⟨c, hFound, hCase⟩ := hL.seek_spec addr
  rw [hSeek, Option.some.injEq] at hFound
  subst hFound
  rcases hCase with ⟨hNone, -⟩ | ⟨-, hb, hAddr⟩
  · exact absurd hNone hNonzero
  · have hp := (hL.free b hb).resolve_left hTaken
    rw [← hAddr, userAddr, Nat.mod_eq_of_lt (hL.range _ hp)]
    exact hp

/-- A byte that is in a held payload, or in no page of the heap. -/
def Spares (m : Mem) (pages held : List Nat) (x : Nat) : Prop :=
  (∃ p ∈ held, (payload m p).Has x) ∨ ∀ page ∈ pages, ¬(pageExtent page).Has x

instance (m : Mem) (pages held : List Nat) (x : Nat) : Decidable (Spares m pages held x) := by
  unfold Spares
  infer_instance

/-- **Writes to such bytes** keep the ledger: they are in no header. -/
theorem Ledger.write {m' : Mem} (hL : Ledger h pages held listed lost)
    (hSame : ∀ x, ¬Spares h.mem pages held x → m' x = h.mem x) :
    Ledger { h with mem := m' } pages held listed lost := by
  have hHeader : ∀ c ∈ listed ++ lost, blockAt m' c = blockAt h.mem c := by
    intro c hc
    refine blockAt_congr fun y hLow hHigh => hSame y ?_
    rintro (⟨p, hp, hHas⟩ | hOut)
    · obtain ⟨b, hb, rfl, -⟩ := hL.block p hp
      unfold payload Extent.Has at hHas
      simp only [Nat.add_sub_cancel] at hHas
      by_cases hcb : c = b
      · omega
      · have hSides := hL.layout.side hb hc (Ne.symm hcb)
        omega
    · obtain ⟨page, hPage, hStart, hEnd⟩ := hL.layout.inPage hc
      have hNot := hOut page hPage
      unfold pageExtent Extent.Has at hNot
      simp only at hNot
      omega
  constructor
  · apply hL.layout.congr
    · exact fun c hc => by rw [hHeader c hc]
    · exact fun c hc => by rw [hHeader c (List.mem_append_left lost hc)]
  · exact hL.range
  · exact hL.keep (fun b hb => hb) fun b hb hTaken => by rw [hHeader b hb]; exact hTaken
  · intro b hb
    rw [hHeader b (List.mem_append_left lost hb)]
    exact hL.free b hb

end MiniKernel.Ports.KmallocLedger

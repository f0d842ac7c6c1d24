import MiniKernel.Ports.PagingAccess
import MiniKernel.Ports.PageLending

/-!
# One heap for the kernel and for user programs

`SYS_MALLOC` calls `kmalloc` with `PAGE_USER`, the kernel without it, and the
flag reaches the page allocator when a request needs a new page.  A request
that some free block fits is served from that block, in whatever page it lies:
after the first control block, a small `SYS_MALLOC` gets memory the program
cannot touch, and after a `SYS_FREE` the kernel keeps its structures where
every program can.

The block a request gets is the first of the smallest that fit.  As long as
that block lies in a page of the right kind, or there is none and a new page is
to be had, all blocks are where they should be.
-/

namespace MiniKernel.Ports.KmallocAccess

open MiniKernel.Verified.ByteMemory
open MiniKernel.Verified.Extents
open MiniKernel.Verified.Links
open MiniKernel.Verified.PageWords
open MiniKernel.Verified.Trace
open MiniKernel.Ports.Pmm
open MiniKernel.Ports.Paging
open MiniKernel.Ports.PagingTables
open MiniKernel.Ports.PagingIdentity (Identity Bounded MapOk boot_invariant)
open MiniKernel.Ports.PagingCalls
open MiniKernel.Ports.PagingRecycling (Recyclable)
open MiniKernel.Ports.PagingAccess (UserWord KernelPage)
open MiniKernel.Ports.Kmalloc
open MiniKernel.Ports.KmallocTiling
open MiniKernel.Ports.KmallocLedger
open MiniKernel.Ports.PageLending

/-! ## The block a request gets -/

instance (size : Nat) (b : Block) : Decidable (b.Fits size) := inferInstanceAs (Decidable (_ ∧ _))

/-- The first of the smallest blocks that fit. -/
def smallestFit (m : Mem) (size : Nat) (blocks : List Nat) : Option Nat :=
  (blocks.filter fun b => (blockAt m b).Fits size).argmin fun b => (blockAt m b).size

/-- The blocks on the list. -/
def blocks (h : Heap) : Option (List Nat) :=
  walk (fun _ => h.next) (fun seen b => seen ++ [b]) addresses h.heapHead []

variable {h : Heap} {pages held listed lost : List Nat}

theorem blocks_eq (hLinked : Linked h.next h.heapHead listed)
    (hShort : listed.length < addresses) : blocks h = some listed := by
  have hFold : ∀ (xs seen : List Nat), xs.foldl (fun seen b => seen ++ [b]) seen = seen ++ xs := by
    intro xs
    induction xs with
    | nil => simp
    | cons x xs ih => simp [ih]
  have hWalk : blocks h = some (listed.foldl (fun seen b => seen ++ [b]) []) := by
    unfold blocks
    apply Linked.walk_eq
    · exact fun _ _ _ => rfl
    · exact hLinked
    · exact hShort
  rw [hWalk, hFold, List.nil_append]

/-- The best-fit loop keeps the first of the smallest. -/
theorem foldl_smallestFit {m : Mem} {size : Nat} {xs : List Nat} (hNonzero : ∀ x ∈ xs, x ≠ 0) :
    xs.foldl (bestFitStep m size) 0 = (smallestFit m size xs).getD 0 := by
  induction xs using List.reverseRecOn with
  | nil => rfl
  | append_singleton xs x ih =>
      have hOld := ih fun y hy => hNonzero y (List.mem_append_left _ hy)
      have hIn : ∀ c ∈ smallestFit m size xs, c ≠ 0 := fun c hc =>
        hNonzero c (List.mem_append_left _ (List.mem_filter.mp (List.argmin_mem hc)).1)
      rw [List.foldl_append, List.foldl_cons, List.foldl_nil, hOld]
      unfold smallestFit at hIn ⊢
      rw [List.filter_append]
      by_cases hFits : (blockAt m x).Fits size
      · rw [List.filter_cons_of_pos (by simpa using hFits), List.filter_nil, List.argmin_concat]
        cases hMin : List.argmin (fun b => (blockAt m b).size)
            (xs.filter fun b => (blockAt m b).Fits size) with
        | none =>
            simp only [Option.getD_none, Option.getD_some, bestFitStep]
            rw [if_pos (show _ ∧ _ from hFits), if_pos (Or.inl trivial)]
        | some c =>
            have hc := hIn c hMin
            simp only [Option.getD_some, bestFitStep]
            rw [if_pos (show _ ∧ _ from hFits)]
            split
            · next hLess => rw [if_pos (hLess.resolve_left hc), Option.getD_some]
            · next hMore => rw [if_neg fun hLess => hMore (Or.inr hLess), Option.getD_some]
      · rw [List.filter_cons_of_neg (by simpa using hFits), List.filter_nil, List.append_nil]
        unfold bestFitStep
        rw [if_neg (show ¬(_ ∧ _) from hFits)]

/-- **The best-fit loop** on a list that ends. -/
theorem bestFit_eq (size : Nat) (hLinked : Linked h.next h.heapHead listed)
    (hShort : listed.length < addresses) :
    bestFit h size = some ((smallestFit h.mem size listed).getD 0) := by
  rw [← foldl_smallestFit hLinked.ne_zero]
  unfold bestFit
  apply Linked.walk_eq
  · exact fun _ _ _ => rfl
  · exact hLinked
  · exact hShort

/-- **Where `kmalloc` gets its block**: the block found on the list, or a new
page.  The request fits a page behind its header. -/
theorem kmalloc_source {σ : Type} {A : Nat → σ → Option (Nat × σ)} {size flag r : Nat} {h' : Heap}
    {s s' : σ} (hLinked : Linked h.next h.heapHead listed) (hShort : listed.length < addresses)
    (hPos : 0 < size) (hFit : size + sizeofBlock ≤ pageSize)
    (hPage : ∀ p t, A (if flag = 0 then presentWrite else flag) s = some (p, t) → p ≠ 0)
    (hRun : kmalloc A size flag h s = some (r, h', s')) :
    match smallestFit h.mem size listed with
    | some best => r = userAddr best ∧ s' = s
    | none => ∃ p, A (if flag = 0 then presentWrite else flag) s = some (p, s') ∧
        r = userAddr p := by
  have hBest := bestFit_eq size hLinked hShort
  unfold kmalloc at hRun
  rw [if_neg (by unfold sizeofBlock at hFit; omega)] at hRun
  simp only at hRun
  generalize (if flag = 0 then presentWrite else flag) = fl at *
  obtain ⟨⟨h₁, s₁⟩, hFirst, hRest⟩ := Option.bind_eq_some_iff.mp hRun
  obtain ⟨⟨best, h₂, s₂⟩, hChoose, hEq⟩ := Option.map_eq_some_iff.mp hRest
  cases hEq
  unfold firstPage at hFirst
  unfold chooseBlock at hChoose
  by_cases hEmpty : h.heapHead = 0
  · -- the first page is one free block, and the request fits it
    rw [if_pos hEmpty] at hFirst
    obtain ⟨⟨p, t⟩, hCall, hEq⟩ := Option.map_eq_some_iff.mp hFirst
    cases hEq
    have hListed : listed = [] :=
      hLinked.unique (hEmpty ▸ (linked_nil.mpr rfl : Linked h.next 0 []))
    subst hListed
    have hNew : Linked (Heap.next ⟨initPage h.mem p, p, p⟩) p [p] := by
      refine linked_cons.mpr ⟨rfl, hPage _ _ hCall, ?_⟩
      simp only [Heap.next, blockAt_initPage, linked_nil]
    obtain ⟨found, hFound, hCase⟩ := bestFit_spec size hNew (show 1 < addresses by decide)
    rw [hFound, Option.bind_some] at hChoose
    rcases hCase with ⟨-, hNone⟩ | ⟨hNonzero, hIn, -⟩
    · refine absurd ?_ (hNone p (by simp))
      rw [blockAt_initPage]
      unfold sizeofBlock pageSize at hFit
      exact ⟨rfl, show size ≤ 4087 by omega⟩
    · rw [if_neg hNonzero] at hChoose
      cases hChoose
      exact ⟨p, hCall, by rw [List.mem_singleton.mp hIn, userAddr]⟩
  · rw [if_neg hEmpty] at hFirst
    cases hFirst
    rw [hBest, Option.bind_some] at hChoose
    cases hFound : smallestFit h.mem size listed with
    | none =>
        rw [hFound, Option.getD_none, if_pos rfl] at hChoose
        obtain ⟨⟨p, t⟩, hCall, hEq⟩ := Option.map_eq_some_iff.mp hChoose
        cases hEq
        exact ⟨p, hCall, rfl⟩
    | some c =>
        have hIn := (List.mem_filter.mp (List.argmin_mem hFound)).1
        rw [hFound, Option.getD_some, if_neg (hLinked.ne_zero c hIn)] at hChoose
        cases hChoose
        exact ⟨rfl, rfl⟩

/-! ## Pages for the heap -/

/-- The page can be had, and mapped with its flags. -/
def Supplied (flag : Nat) (vm : Vm) : Prop :=
  flag < 2 ^ 32 ∧ Present (defaultFlags flag) ∧ Recyclable ⟨vm, []⟩ (.allocatePage 0) ∧
    (allocate 4096 vm.pmm).1 ≠ 0 ∧
    PageMeets (fun physical virtual flags vm => MapOk physical virtual flags vm ∧
      Tabled virtual vm) flag vm

instance (flag : Nat) (vm : Vm) : Decidable (Supplied flag vm) :=
  inferInstanceAs (Decidable (_ ∧ _ ∧ _ ∧ _ ∧ _))

/-- `allocate_page` for such pages. -/
def supply (flag : Nat) (vm : Vm) : Option (Nat × Vm) :=
  if Supplied flag vm then allocatePage pageWalk flag vm else none

theorem supply_refines : Refines (allocatePage pageWalk) supply := fun _ _ _ h =>
  (Option.ite_none_right_eq_some.mp h).2

/-- The pages of the heap are pages of their own, and the tables are in place. -/
structure Grounded (pages : List Nat) (vm : Vm) : Prop where
  whole : Whole vm (pages.map pageOf)
  isPage : ∀ p ∈ pages, IsPage p
  identity : Identity vm
  bounded : Bounded vm

variable {vm vm' : Vm}

/-- **A page for the heap** is new, mapped with its flags, and no other is touched. -/
theorem Grounded.supply {flag v : Nat} (h : Grounded pages vm)
    (hCall : supply flag vm = some (v, vm')) :
    Grounded (v :: pages) vm' ∧ Fresh pages v ∧
      (∀ q, q < 2 ^ 20 → q ≠ pageOf v → entryWord vm' q = entryWord vm q) ∧
      ∃ f, entryWord vm' (pageOf v) = frameOf f ||| defaultFlags flag := by
  obtain ⟨⟨hFlag, -, hOk, hFrame, hMeets⟩, hCall⟩ := Option.ite_none_right_eq_some.mp hCall
  obtain ⟨hMapOk, hTabled⟩ := hMeets hFrame
  obtain ⟨-, ⟨-, hNone, -⟩ | ⟨hIs, hWhole⟩⟩ := h.whole.allocatePage hOk hCall
  · exact absurd hNone hFrame
  · rw [allocatePage_some hFrame] at hCall
    obtain ⟨vm₁, hMap, hEq⟩ := Option.map_eq_some_iff.mp hCall
    cases hEq
    have hStart : Bounded { vm with pmm := (allocate 4096 vm.pmm).2 } :=
      h.bounded.same ⟨rfl, rfl, rfl⟩
    obtain ⟨hVirtual, hTaken⟩ := hStart.take
    obtain ⟨-, hMem, hDirectory, -⟩ :=
      takeVirtual_frame { vm with pmm := (allocate 4096 vm.pmm).2 }
    generalize takeVirtual { vm with pmm := (allocate 4096 vm.pmm).2 } = t at *
    have hIdentity := h.identity.update hMem hDirectory
    have hFlags := defaultFlags_lt (n := 2 ^ 32) (by decide) hFlag
    have hWords := mapPage_words hIdentity hVirtual hFlags hMapOk hTabled hMap
    have hSame : ∀ q, entryWord t.2 q = entryWord vm q := fun q =>
      entryWord_congr (sameTable_of_eq (by rw [hDirectory])) fun _ x _ _ => by rw [hMem]
    have hNew : pageOf t.1 ∉ pages.map pageOf :=
      (List.nodup_cons.mp (List.nodup_append.mp hWhole.placed.nodup).1).1
    refine ⟨⟨hWhole, ?_, ?_, hTaken.same (mapPage_same hMap)⟩, ⟨?_, Nat.le_of_lt hIs.2.2, ?_⟩, ?_,
      (allocate 4096 vm.pmm).1, ?_⟩
    · intro p hp
      rcases List.mem_cons.mp hp with rfl | hp
      · exact hIs
      · exact h.isPage p hp
    · exact PagingIdentity.mapPage_identity hIdentity hVirtual hFlags hMapOk hMap
    · have := hIs.2.1
      omega
    · intro q hq
      exact isPage_apart hIs (h.isPage q hq) fun hEq => hNew (hEq ▸ List.mem_map_of_mem hq)
    · intro q hq hne
      rw [hWords q hq, if_neg hne, hSame]
    · rw [hWords _ (by unfold pageOf; omega), if_pos rfl]

/-- The same, with what became of the pages of an earlier state. -/
structure Grown (old : List Nat) (vm₀ : Vm) (pages : List Nat) (vm : Vm) : Prop where
  grounded : Grounded pages vm
  old : ∀ p ∈ old, p ∈ pages ∧ entryWord vm (pageOf p) = entryWord vm₀ (pageOf p)

theorem pageOf_lt {p : Nat} (h : IsPage p) : pageOf p < 2 ^ 20 := by
  have := h.2.2
  unfold pageOf
  omega

/-- Pages with different addresses are different pages. -/
theorem pageOf_ne {p q : Nat} (hp : IsPage p) (hq : IsPage q) (hne : p ≠ q) :
    pageOf p ≠ pageOf q := by
  have hpAligned := hp.1
  have hqAligned := hq.1
  unfold pageOf
  omega

/-- **The heap gets fresh pages**, and the old ones keep their words. -/
theorem supply_provides (old : List Nat) (vm₀ : Vm) : Provides supply (Grown old vm₀) := by
  intro pages flag vm v vm' h hCall
  obtain ⟨hGrounded, hFresh, hWords, -⟩ := h.grounded.supply hCall
  refine ⟨hFresh, hGrounded, fun p hp => ?_⟩
  obtain ⟨hIn, hWord⟩ := h.old p hp
  have hIsPage := h.grounded.isPage p hIn
  refine ⟨List.mem_cons_of_mem _ hIn, ?_⟩
  rw [hWords _ (pageOf_lt hIsPage) ?_, hWord]
  apply pageOf_ne hIsPage (hGrounded.isPage v List.mem_cons_self)
  rintro rfl
  have hApart := hFresh.2.2 p hIn p
  simp only [pageExtent, pageSize, Extent.Has] at hApart
  omega

/-! ## Kinds of pages -/

/-- The page is mapped with `PAGE_USER`, or without it. -/
def Kind (user : Bool) (vm : Vm) (p : Nat) : Prop :=
  Present (entryWord vm p) ∧ (UserWord (entryWord vm p) ↔ user = true)

instance (user : Bool) (vm : Vm) (p : Nat) : Decidable (Kind user vm p) :=
  inferInstanceAs (Decidable (_ ∧ _))

theorem Kind.congr {user : Bool} {p : Nat} (h : Kind user vm p)
    (hWord : entryWord vm' p = entryWord vm p) : Kind user vm' p := by
  unfold Kind
  rw [hWord]
  exact h

/-- The flags of a word are those it was made with. -/
theorem userWord_or (f flags : Nat) : UserWord (frameOf f ||| flags) ↔ UserWord flags := by
  have hFrame : frameOf f &&& pageUser = 0 := by
    apply Nat.eq_of_testBit_eq
    intro i
    rw [Nat.testBit_and, Nat.zero_testBit, frameOf, show 4096 = 2 ^ 12 by decide,
      Nat.testBit_two_pow_mul, show pageUser = 2 ^ 2 by decide, Nat.testBit_two_pow]
    by_cases hi : 2 = i
    · simp [← hi]
    · simp [hi]
  unfold UserWord
  rw [Nat.and_or_distrib_right, hFrame, Nat.zero_or]

/-! ## Runs -/

/-- A block that was returned: its address, the size asked for, and for whom. -/
structure Given where
  address : Nat
  size : Nat
  user : Bool
  deriving Repr, DecidableEq

/-- The heap, virtual memory under it, and the blocks returned so far. -/
structure State where
  heap : Heap
  vm : Vm
  given : List Given

inductive Event
  | kmalloc (size flag : Nat)
  | sysKmalloc (size : Nat)
  | kfree (addr : Nat)
  | sysFree (addr : Nat)
  deriving Repr, DecidableEq

/-- `kmalloc`, with a record of what it returns. -/
def give (A : Nat → Vm → Option (Nat × Vm)) (user : Bool) (size flag : Nat) (s : State) :
    Option State :=
  (kmalloc A size flag s.heap s.vm).map fun r =>
    { heap := r.2.1
      vm := r.2.2
      given := if r.1 = 0 then s.given else ⟨r.1, size, user⟩ :: s.given }

/-- One call; the kernel's own requests are without `PAGE_USER`. -/
def step (A : Nat → Vm → Option (Nat × Vm)) (s : State) : Event → Option State
  | .kmalloc size flag => if ¬UserWord flag then give A false size flag s else none
  | .sysKmalloc size => give A true size userFlags s
  | .kfree addr | .sysFree addr => (kfree addr s.heap).map fun heap => { s with heap := heap }

/-- The request fits a page behind its header, and the block it gets lies in a
page of its kind. -/
def Suited (user : Bool) (size : Nat) (s : State) : Prop :=
  0 < size → size ≤ pageSize → size + sizeofBlock ≤ pageSize ∧
    ∀ listed ∈ blocks s.heap, ∀ b ∈ smallestFit s.heap.mem size listed, Kind user s.vm (pageOf b)

instance (user : Bool) (size : Nat) (s : State) : Decidable (Suited user size s) :=
  inferInstanceAs (Decidable (_ → _ → _ ∧ _))

/-- The call is suited, and a page it asks for can be had and mapped. -/
def Housed (s : State) (e : Event) : Prop :=
  (step supply s e).isSome ∧
    match e with
    | .kmalloc size _ => Suited false size s
    | .sysKmalloc size => Suited true size s
    | .kfree _ | .sysFree _ => True

instance (s : State) (e : Event) : Decidable (Housed s e) := by
  unfold Housed
  cases e <;> infer_instance

/-- A run with supplied pages is a run. -/
theorem step_refines {s s' : State} {e : Event} (h : step supply s e = some s') :
    step (allocatePage pageWalk) s e = some s' := by
  have hGive : ∀ {user size flag}, give supply user size flag s = some s' →
      give (allocatePage pageWalk) user size flag s = some s' := by
    intro user size flag hRun
    obtain ⟨r, hCall, rfl⟩ := Option.map_eq_some_iff.mp hRun
    rw [give, kmalloc_refines supply_refines hCall, Option.map_some]
  cases e with
  | kmalloc size flag =>
      obtain ⟨hFlag, hRun⟩ := Option.ite_none_right_eq_some.mp h
      rw [step, if_pos hFlag]
      exact hGive hRun
  | sysKmalloc size => exact hGive h
  | kfree addr => exact h
  | sysFree addr => exact h

/-- The block lies in a page of the heap of its kind. -/
def InPage (pages : List Nat) (vm : Vm) (g : Given) : Prop :=
  ∃ p ∈ pages, p ≤ g.address ∧ g.address + g.size ≤ p + pageSize ∧ Kind g.user vm (pageOf p)

/-- The heap invariant, and every block returned is in its page. -/
def Settled (s : State) : Prop :=
  ∃ pages held listed lost, Grounded pages s.vm ∧ Ledger s.heap pages held listed lost ∧
    ∀ g ∈ s.given, InPage pages s.vm g

theorem InPage.grown {pages' : List Nat} {g : Given} (h : InPage pages vm g)
    (hGrown : Grown pages vm pages' vm') : InPage pages' vm' g := by
  obtain ⟨p, hp, hLow, hHigh, hKind⟩ := h
  obtain ⟨hIn, hWord⟩ := hGrown.old p hp
  exact ⟨p, hIn, hLow, hHigh, hKind.congr hWord⟩

/-- The page of a block on the list. -/
theorem pageOf_block {p b : Nat} (hIs : IsPage p) (hLow : p ≤ b) (hHigh : b < p + pageSize) :
    pageOf b = pageOf p := by
  have hAligned := hIs.1
  unfold pageSize at hHigh
  unfold pageOf
  omega

/-- **One request**: the block it gets lies in a page of its kind. -/
theorem Settled.give {s s' : State} {user : Bool} {size flag : Nat} (h : Settled s)
    (hSuited : Suited user size s)
    (hUser : UserWord (defaultFlags (if flag = 0 then presentWrite else flag)) ↔ user = true)
    (hRun : give supply user size flag s = some s') : Settled s' := by
  obtain ⟨pages, held, listed, lost, hGrounded, hLedger, hGiven⟩ := h
  obtain ⟨⟨r, heap, vm⟩, hCall, rfl⟩ := Option.map_eq_some_iff.mp hRun
  obtain ⟨-, -, pages', listed', lost', hGrown, hLedger'⟩ :=
    hLedger.alloc (supply_provides pages s.vm) ⟨hGrounded, fun p hp => ⟨hp, rfl⟩⟩ hCall
  have hOld : ∀ g ∈ s.given, InPage pages' vm g := fun g hg => (hGiven g hg).grown hGrown
  refine ⟨pages', _, listed', lost', hGrown.grounded, hLedger', ?_⟩
  by_cases hZero : r = 0
  · simp only [if_pos hZero]
    exact hOld
  simp only [if_neg hZero]
  rw [if_neg hZero] at hLedger'
  suffices hNew : InPage pages' vm ⟨r, size, user⟩ by
    intro g hg
    rcases List.mem_cons.mp hg with rfl | hg
    · exact hNew
    · exact hOld g hg
  have hSize : 0 < size ∧ size ≤ pageSize := by
    by_contra hBad
    unfold Kmalloc.kmalloc at hCall
    rw [if_pos (by omega)] at hCall
    cases hCall
    exact hZero rfl
  obtain ⟨hFit, hKind⟩ := hSuited hSize.1 hSize.2
  have hNonzero : ∀ p t, KmallocAccess.supply (if flag = 0 then presentWrite else flag) s.vm =
      some (p, t) → p ≠ 0 := fun p t hPage => (hGrounded.supply hPage).2.1.1
  have hSource := kmalloc_source hLedger.layout.linked hLedger.layout.short hSize.1 hFit
    hNonzero hCall
  cases hFound : smallestFit s.heap.mem size listed with
  | some best =>
      -- a block of the list, in a page that was there before
      rw [hFound] at hSource
      obtain ⟨rfl, rfl⟩ := hSource
      obtain ⟨hIn, hFits⟩ := List.mem_filter.mp (List.argmin_mem hFound)
      obtain ⟨p, hp, hLow, hHigh⟩ := hLedger.layout.inPage (List.mem_append_left lost hIn)
      have hFits : (blockAt s.heap.mem best).Fits size := by simpa using hFits
      have hBest := hKind listed (blocks_eq hLedger.layout.linked hLedger.layout.short) best hFound
      have hRange := hLedger.layout.range p hp
      have hSmall := hFits.2
      have hAddr : userAddr best = best + sizeofBlock := Nat.mod_eq_of_lt (by omega)
      refine ⟨p, (hGrown.old p hp).1, ?_, ?_, ?_⟩
      · simp only [hAddr]
        omega
      · simp only [hAddr]
        omega
      · rw [← pageOf_block (hGrounded.isPage p hp) hLow (by unfold sizeofBlock at hHigh; omega)]
        exact hBest
  | none =>
      rw [hFound] at hSource
      obtain ⟨p, hPage, rfl⟩ := hSource
      obtain ⟨hGrounded', hFresh, -, f, hWord⟩ := hGrounded.supply hPage
      have hIs := hGrounded'.isPage p List.mem_cons_self
      have hPresent := (Option.ite_none_right_eq_some.mp hPage).1.2.1
      have hAddr : userAddr p = p + sizeofBlock := by
        have := hIs.2.2
        exact Nat.mod_eq_of_lt (by unfold sizeofBlock; omega)
      -- the page is the one the heap has the block in
      obtain ⟨b, hb, hEq, -⟩ := hLedger'.block _ List.mem_cons_self
      obtain rfl : b = p := by omega
      obtain ⟨q, hq, hLow, hHigh⟩ := hLedger'.layout.inPage hb
      have hSame := pageOf_block (hGrown.grounded.isPage q hq) hLow
        (by unfold sizeofBlock at hHigh; omega)
      refine ⟨q, hq, ?_, ?_, ?_⟩
      · simp only [hAddr]
        omega
      · by_cases hqb : q = b
        · simp only [hAddr, hqb]
          omega
        · exact absurd hSame (pageOf_ne hIs (hGrown.grounded.isPage q hq) (Ne.symm hqb))
      · rw [← hSame, Kind, hWord, userWord_or, or_mod_two]
        exact ⟨Or.inr hPresent, hUser⟩

/-- **One call.** -/
theorem step_settled (s : State) (e : Event) (s' : State) (h : Settled s) (hOk : Housed s e)
    (hStep : step (allocatePage pageWalk) s e = some s') : Settled s' := by
  obtain ⟨hSome, hSuited⟩ := hOk
  obtain ⟨s₁, hRun⟩ := Option.isSome_iff_exists.mp hSome
  cases hStep.symm.trans (step_refines hRun)
  have hFree : ∀ {addr}, (kfree addr s.heap).map (fun heap => { s with heap := heap }) =
      some s' → Settled s' := by
    intro addr hCall
    obtain ⟨pages, held, listed, lost, hGrounded, hLedger, hGiven⟩ := h
    obtain ⟨heap, hHeap, rfl⟩ := Option.map_eq_some_iff.mp hCall
    exact ⟨pages, _, listed, lost, hGrounded, hLedger.release hHeap, hGiven⟩
  cases e with
  | kmalloc size flag =>
      obtain ⟨hFlag, hRun⟩ := Option.ite_none_right_eq_some.mp hRun
      refine h.give hSuited ?_ hRun
      simp only [Bool.false_eq_true, iff_false]
      by_cases hZero : flag = 0
      · rw [if_pos hZero]
        decide
      · rw [if_neg hZero, defaultFlags, if_neg hZero]
        exact hFlag
  | sysKmalloc size => exact h.give hSuited (by decide) hRun
  | kfree addr => exact hFree hRun
  | sysFree addr => exact hFree hRun

/-- The heap is empty and paging has just been turned on. -/
def start (layout : Paging.Layout) (pmm : Table) (mem heapMem : Mem) (freeVirtual : Nat → Nat) :
    State where
  heap := { mem := heapMem, heapHead := 0, currentBlock := 0 }
  vm := boot layout pmm mem freeVirtual
  given := []

theorem boot_whole (layout : Paging.Layout) (pmm : Table) (mem : Mem) (freeVirtual : Nat → Nat) :
    Whole (boot layout pmm mem freeVirtual) [] where
  placed := PagingRecycling.boot_placed layout pmm mem freeVirtual
  freed := by simp [stack, boot, buildFirstPage, initVirtualAllocator]
  positive := by
    have hInside := layout.inside
    have hLow := layout.low
    simp only [boot, buildFirstPage, initVirtualAllocator, and_mask, frameOf]
    omega

/-- **Every block lies in pages of its kind** in every run whose calls are all
housed: what `SYS_MALLOC` returned in pages with `PAGE_USER`, what the kernel
got in pages without it. -/
theorem blocks_of_kind {layout : Paging.Layout} {pmm : Table} {mem heapMem : Mem}
    {freeVirtual : Nat → Nat} {events : List Event} {s : State}
    (hRun : exec (step (allocatePage pageWalk)) (start layout pmm mem heapMem freeVirtual) events =
      some s)
    (hOk : Meets (step (allocatePage pageWalk)) Housed (start layout pmm mem heapMem freeVirtual)
      events) : ∀ g ∈ s.given, ∀ x < g.size, Kind g.user s.vm (pageOf (g.address + x)) := by
  have hStart : Settled (start layout pmm mem heapMem freeVirtual) := by
    refine ⟨[], [], [], [], ⟨?_, by simp, (boot_invariant ..).1, (boot_invariant ..).2⟩,
      ledger_start _, by simp [start]⟩
    exact boot_whole layout pmm mem freeVirtual
  obtain ⟨pages, held, listed, lost, hGrounded, -, hGiven⟩ :=
    hOk.invariant step_settled hStart hRun
  intro g hg x hx
  obtain ⟨p, hp, hLow, hHigh, hKind⟩ := hGiven g hg
  rw [pageOf_block (hGrounded.isPage p hp) (show p ≤ g.address + x by omega) (by omega)]
  exact hKind

/-- A kernel block and a user block fill a page each; the first is freed, and a
smaller one takes its place. -/
theorem blocks_of_kind_twoPages :
    ∃ s, exec (step (allocatePage pageWalk))
        (start image PmmOwnership.pcMap (fun _ => 0) (fun _ => 0) (fun _ => 0))
        [.kmalloc 4000 3, .sysKmalloc 4000, .kfree 0x26009, .kmalloc 3000 3] = some s ∧
      s.given = [⟨0x26009, 3000, false⟩, ⟨0x27009, 4000, true⟩, ⟨0x26009, 4000, false⟩] ∧
      ∀ g ∈ s.given, ∀ x < g.size, Kind g.user s.vm (pageOf (g.address + x)) := by
  have hGiven : (exec (step (allocatePage pageWalk))
      (start image PmmOwnership.pcMap (fun _ => 0) (fun _ => 0) (fun _ => 0))
      [.kmalloc 4000 3, .sysKmalloc 4000, .kfree 0x26009, .kmalloc 3000 3]).map State.given =
        some [⟨0x26009, 3000, false⟩, ⟨0x27009, 4000, true⟩, ⟨0x26009, 4000, false⟩] := by
    rw [start, boot_eq]
    decide +kernel
  obtain ⟨s, hRun, hs⟩ := Option.map_eq_some_iff.mp hGiven
  refine ⟨s, hRun, hs, blocks_of_kind hRun ?_⟩
  rw [start, boot_eq]
  decide +kernel

/-- After a control block, a `SYS_MALLOC` of 100 bytes gets the rest of its page,
which is mapped without `PAGE_USER`. -/
theorem user_block_in_kernel_page :
    ∃ s, exec (step (allocatePage pageWalk))
        (start image PmmOwnership.pcMap (fun _ => 0) (fun _ => 0) (fun _ => 0))
        [.kmalloc 48 3, .sysKmalloc 100] = some s ∧
      ⟨0x26042, 100, true⟩ ∈ s.given ∧ KernelPage s.vm (pageOf 0x26042) := by
  have hView : (exec (step (allocatePage pageWalk))
      (start image PmmOwnership.pcMap (fun _ => 0) (fun _ => 0) (fun _ => 0))
      [.kmalloc 48 3, .sysKmalloc 100]).map (fun s => decide (⟨0x26042, 100, true⟩ ∈ s.given ∧
        KernelPage s.vm (pageOf 0x26042))) = some true := by
    rw [start, boot_eq]
    decide +kernel
  obtain ⟨s, hRun, hs⟩ := Option.map_eq_some_iff.mp hView
  exact ⟨s, hRun, of_decide_eq_true hs⟩

end MiniKernel.Ports.KmallocAccess

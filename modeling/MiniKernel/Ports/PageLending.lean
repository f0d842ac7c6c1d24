import MiniKernel.Ports.PagingRecycling
import MiniKernel.Ports.KmallocLedger

/-!
# Lending pages

The page allocator as its callers see it: `kmalloc` takes pages for the heap,
`create_process` a range for a kernel stack and a page for a user stack, and
both are what `pmm.c` hands out.  `lending` is that allocator together with a
record of who got what; the record has no influence on what it does.

`guard` stops an allocator at the calls that do not meet a condition.  A run
of the guarded allocator is a run of the allocator whose calls all meet it.
-/

namespace MiniKernel.Ports.PageLending

open MiniKernel.Verified.PageWords
open MiniKernel.Verified.Extents
open MiniKernel.Ports.Pmm (allocate)
open MiniKernel.Ports.Paging
open MiniKernel.Ports.PagingRecycling
open MiniKernel.Ports.Kmalloc (pageSize)
open MiniKernel.Ports.KmallocTiling
open MiniKernel.Ports.KmallocLedger

universe u

/-- The three functions of the page allocator; `heapPage` is `allocate_page`
where `kmalloc` calls it. -/
structure PageAllocator (σ : Type u) where
  heapPage : Nat → σ → Option (Nat × σ)
  allocatePage : Nat → σ → Option (Nat × σ)
  allocatePagesContig : Int → Nat → σ → Option (Nat × σ)
  freePage : Nat → σ → Option σ

inductive PageCall
  | heapPage
  | allocatePage
  | allocatePagesContig (count : Int)
  | freePage (addr : Nat)
  deriving Repr, DecidableEq

section Guard

variable {σ : Type u}

/-- The allocator for calls that meet the condition. -/
def PageAllocator.guard (A : PageAllocator σ) (ok : σ → PageCall → Bool) : PageAllocator σ where
  heapPage flag s := if ok s .heapPage then A.heapPage flag s else none
  allocatePage flag s := if ok s .allocatePage then A.allocatePage flag s else none
  allocatePagesContig count flag s :=
    if ok s (.allocatePagesContig count) then A.allocatePagesContig count flag s else none
  freePage addr s := if ok s (.freePage addr) then A.freePage addr s else none

/-- What the second allocator does is what the first one does. -/
structure Extends (A B : PageAllocator σ) : Prop where
  heapPage : Refines A.heapPage B.heapPage
  allocatePage : Refines A.allocatePage B.allocatePage
  allocatePagesContig : ∀ count flag s r, B.allocatePagesContig count flag s = some r →
    A.allocatePagesContig count flag s = some r
  freePage : ∀ addr s r, B.freePage addr s = some r → A.freePage addr s = some r

theorem guard_some {α : Type u} {c : Bool} {x : Option α} {r : α}
    (h : (if c then x else none) = some r) : c = true ∧ x = some r := by
  cases c with
  | true => exact ⟨rfl, h⟩
  | false => simp at h

/-- What follows a call that two allocators answer alike. -/
theorem call_extends {α β : Type u} {c : Prop} [Decidable c] {x y : Option α} {f : α → Option β}
    {r : β} (hxy : ∀ a, y = some a → x = some a) (h : (if c then y.bind f else none) = some r) :
    (if c then x.bind f else none) = some r := by
  obtain ⟨hOn, h⟩ := Option.ite_none_right_eq_some.mp h
  obtain ⟨a, hRun, h⟩ := Option.bind_eq_some_iff.mp h
  rw [if_pos hOn, hxy a hRun]
  exact h

theorem extends_guard (A : PageAllocator σ) (ok : σ → PageCall → Bool) :
    Extends A (A.guard ok) where
  heapPage _ _ _ h := (guard_some h).2
  allocatePage _ _ _ h := (guard_some h).2
  allocatePagesContig _ _ _ _ h := (guard_some h).2
  freePage _ _ _ h := (guard_some h).2

end Guard

/-! ## The record -/

/-- Virtual memory, the pages of the heap, the user stack pages, and the numbers
of the pages of kernel stacks. -/
structure Lent where
  vm : Vm
  heap : List Nat
  user : List Nat
  kernel : List Nat

/-- Whatever is lent, by page number. -/
def Lent.held (l : Lent) : List Nat := l.heap.map pageOf ++ (l.user.map pageOf ++ l.kernel)

/-- The allocator of `pmm.c`. -/
def paging (ptr : Vm → Nat → Option Nat) : PageAllocator Vm where
  heapPage := allocatePage ptr
  allocatePage := allocatePage ptr
  allocatePagesContig := allocatePagesContig ptr
  freePage := freePage ptr

/-- The same with the record. -/
def lending (ptr : Vm → Nat → Option Nat) : PageAllocator Lent where
  heapPage flag l := (allocatePage ptr flag l.vm).map fun r =>
    (r.1, { l with vm := r.2, heap := if r.1 = 0 then l.heap else r.1 :: l.heap })
  allocatePage flag l := (allocatePage ptr flag l.vm).map fun r =>
    (r.1, { l with vm := r.2, user := if r.1 = 0 then l.user else r.1 :: l.user })
  allocatePagesContig count flag l := (allocatePagesContig ptr count flag l.vm).map fun r =>
    (r.1, { l with vm := r.2, kernel := if r.1 = 0 then l.kernel else pagesFrom r.1 count ++ l.kernel })
  freePage addr l := (freePage ptr addr l.vm).map fun vm =>
    { l with vm := vm, kernel := l.kernel.filter (· ≠ pageOf addr) }

/-- The record changes nothing. -/
theorem lending_vm (ptr : Vm → Nat → Option Nat) (l : Lent) :
    (∀ flag, ((lending ptr).heapPage flag l).map (fun r => (r.1, r.2.vm)) =
      (paging ptr).heapPage flag l.vm) ∧
    (∀ flag, ((lending ptr).allocatePage flag l).map (fun r => (r.1, r.2.vm)) =
      (paging ptr).allocatePage flag l.vm) ∧
    (∀ count flag, ((lending ptr).allocatePagesContig count flag l).map (fun r => (r.1, r.2.vm)) =
      (paging ptr).allocatePagesContig count flag l.vm) ∧
    ∀ addr, ((lending ptr).freePage addr l).map Lent.vm = (paging ptr).freePage addr l.vm := by
  refine ⟨fun flag => ?_, fun flag => ?_, fun count flag => ?_, fun addr => ?_⟩
  all_goals
    simp only [lending, paging, Option.map_map, Function.comp_def]
    exact Option.map_id'

/-- `next_virtual` does not wrap, and `free_virtual` has room for a freed page. -/
def Lent.roomy (l : Lent) : PageCall → Bool
  | .heapPage | .allocatePage => decide (Recyclable ⟨l.vm, []⟩ (.allocatePage 0))
  | .allocatePagesContig count => decide (Recyclable ⟨l.vm, []⟩ (.allocatePagesContig count 0))
  | .freePage addr => decide (Recyclable ⟨l.vm, []⟩ (.freePage addr))

/-- Besides, `kmalloc` gets the pages it asks for. -/
def Lent.supplied (l : Lent) : PageCall → Bool
  | .heapPage => decide ((allocate 4096 l.vm.pmm).1 ≠ 0) && l.roomy .heapPage
  | c => l.roomy c

/-! ## Whole pages -/

variable {ptr : Vm → Nat → Option Nat} {vm vm' : Vm} {held : List Nat}

theorem placed_perm {held' : List Nat} (h : Placed vm held) (hPerm : held.Perm held') :
    Placed vm held' where
  nodup := (hPerm.append_right _).nodup_iff.mp h.nodup
  below p hp := h.below p ((hPerm.append_right _).mem_iff.mpr hp)
  aligned := h.aligned
  range := h.range

/-- The freed pages are addresses of pages. -/
structure Whole (vm : Vm) (held : List Nat) : Prop where
  placed : Placed vm held
  freed : ∀ a ∈ stack vm, a % 4096 = 0 ∧ 0 < a
  positive : 0 < vm.nextVirtual

/-- The address of a page that can be mapped. -/
def IsPage (p : Nat) : Prop := p % 4096 = 0 ∧ 0 < p ∧ p + 4096 < 2 ^ 32

theorem whole_same (h : Whole vm held) (hSame : SameVirtual vm vm') : Whole vm' held where
  placed := h.placed.same hSame
  freed := by
    rw [hSame.stack]
    exact h.freed
  positive := by
    rw [hSame.nextVirtual]
    exact h.positive

/-- The virtual page `allocate_page` uses next. -/
theorem takeVirtual_isPage (h : Whole vm held)
    (hWrap : vm.freeCount = 0 → vm.nextVirtual + 4096 < 2 ^ 32) :
    IsPage (takeVirtual vm).1 ∧ vm.nextVirtual ≤ (takeVirtual vm).2.nextVirtual ∧
      (takeVirtual vm).2.nextVirtual ≤ vm.nextVirtual + 4096 := by
  have hAligned := h.placed.aligned
  have hPositive := h.positive
  have hRange := h.placed.range
  unfold takeVirtual IsPage
  by_cases hCount : 0 < vm.freeCount
  · rw [if_pos hCount]
    have hIn : vm.freeVirtual (vm.freeCount - 1) ∈ stack vm :=
      List.mem_map_of_mem (List.mem_range.mpr (by omega))
    have hFree := h.freed _ hIn
    have hBelow := h.placed.below _ (List.mem_append_right held (List.mem_map_of_mem hIn))
    unfold pageOf at hBelow
    exact ⟨⟨hFree.1, hFree.2, by omega⟩, Nat.le_refl _, Nat.le_add_right _ _⟩
  · rw [if_neg hCount]
    have hNext := hWrap (by omega)
    have hBump : (vm.nextVirtual + 4096) % 2 ^ 32 = vm.nextVirtual + 4096 :=
      Nat.mod_eq_of_lt hNext
    rw [hBump]
    exact ⟨⟨hAligned, hPositive, by omega⟩, Nat.le_add_right _ _, Nat.le_refl _⟩

/-- `next_virtual` moves by at most so many pages. -/
def Reaches (n : Nat) (vm vm' : Vm) : Prop :=
  vm.nextVirtual ≤ vm'.nextVirtual ∧ vm'.nextVirtual ≤ vm.nextVirtual + n * 4096

/-- **`allocate_page`** fails, or returns a page that nobody holds. -/
theorem Whole.allocatePage {flag v : Nat} (h : Whole vm held)
    (hOk : Recyclable ⟨vm, []⟩ (.allocatePage 0))
    (hCall : Paging.allocatePage ptr flag vm = some (v, vm')) :
    Reaches 1 vm vm' ∧ (v = 0 ∧ (allocate 4096 vm.pmm).1 = 0 ∧ Whole vm' held ∨
      IsPage v ∧ Whole vm' (pageOf v :: held)) := by
  have hPlaced : Placed vm' (if v = 0 then held else pageOf v :: held) := by
    apply @step_placed ptr ⟨vm, held⟩ (.allocatePage flag)
      ⟨vm', if v = 0 then held else pageOf v :: held⟩ h.placed hOk
    rw [step, hCall, Option.map_some]
  by_cases hFrame : (allocate 4096 vm.pmm).1 = 0
  · unfold Paging.allocatePage at hCall
    rw [if_pos hFrame] at hCall
    cases hCall
    exact ⟨⟨Nat.le_refl _, Nat.le_add_right _ _⟩,
      Or.inl ⟨rfl, hFrame, whole_same h ⟨rfl, rfl, rfl⟩⟩⟩
  · rw [allocatePage_some hFrame] at hCall
    obtain ⟨vm₁, hMap, hEq⟩ := Option.map_eq_some_iff.mp hCall
    cases hEq
    have hStart : Whole { vm with pmm := (allocate 4096 vm.pmm).2 } held :=
      whole_same h ⟨rfl, rfl, rfl⟩
    obtain ⟨hPage, hLow, hHigh⟩ := takeVirtual_isPage hStart (hOk hFrame)
    have hSame := mapPage_same hMap
    have hPositive := h.positive
    rw [if_neg (by have := hPage.2.1; omega)] at hPlaced
    rw [← hSame.nextVirtual] at hLow hHigh
    refine ⟨⟨hLow, by omega⟩, Or.inr ⟨hPage, hPlaced, ?_, Nat.lt_of_lt_of_le hPositive hLow⟩⟩
    intro a ha
    rw [hSame.stack] at ha
    exact hStart.freed a ((takeVirtual_frame _).2.2.2 a ha)

/-- **`allocate_pages_contig`** fails, or returns a range nobody holds. -/
theorem Whole.allocatePagesContig {count : Int} {flag v : Nat} (h : Whole vm held)
    (hOk : Recyclable ⟨vm, []⟩ (.allocatePagesContig count 0))
    (hCall : Paging.allocatePagesContig ptr count flag vm = some (v, vm')) :
    v = 0 ∧ Whole vm' held ∨
      v = vm.nextVirtual ∧ v + count.toNat * 4096 < 2 ^ 32 ∧
        Whole vm' (pagesFrom v count ++ held) := by
  have hPlaced : Placed vm' (if v = 0 then held else pagesFrom v count ++ held) := by
    apply @step_placed ptr ⟨vm, held⟩ (.allocatePagesContig count flag)
      ⟨vm', if v = 0 then held else pagesFrom v count ++ held⟩ h.placed hOk
    rw [step, hCall, Option.map_some]
  unfold Paging.allocatePagesContig at hCall
  obtain ⟨⟨done, vm₁⟩, hLoop, hEq⟩ := Option.map_eq_some_iff.mp hCall
  have hSame := mapContig_same hLoop
  have hPositive := h.positive
  have hRange := h.placed.range
  obtain ⟨hCount, hWrap⟩ := hOk
  cases hEq
  have hStack : ∀ a ∈ stack vm₁, a % 4096 = 0 ∧ 0 < a := by
    rw [hSame.stack]
    exact h.freed
  have hNext : 0 < vm₁.nextVirtual := by
    rw [hSame.nextVirtual]
    simp only at hWrap ⊢
    omega
  cases done with
  | true =>
      right
      simp only [if_true] at hPlaced ⊢
      rw [if_neg (by omega)] at hPlaced
      exact ⟨trivial, hWrap, hPlaced, hStack, hNext⟩
  | false =>
      left
      exact ⟨rfl, hPlaced, hStack, hNext⟩

/-- **`free_page`** of a page. -/
theorem Whole.freePage {addr : Nat} (h : Whole vm held) (hAligned : addr % 4096 = 0)
    (hPositive : 0 < addr) (hOk : Recyclable ⟨vm, []⟩ (.freePage addr))
    (hCall : Paging.freePage ptr addr vm = some vm') :
    Whole vm' (held.filter (· ≠ pageOf addr)) := by
  have hBelow : addr < 2 ^ 32 := Nat.lt_trans hOk.2.1 h.placed.range
  have hPlaced : Placed vm' (held.filter (· ≠ pageOf addr)) := by
    apply @step_placed ptr ⟨vm, held⟩ (.freePage addr)
      ⟨vm', held.filter (· ≠ pageOf addr)⟩ h.placed hOk
    simp only [step, if_pos hBelow, hCall, Option.map_some]
  have hSame := freePage_same hCall
  refine ⟨hPlaced, ?_, ?_⟩
  · intro a ha
    rw [hSame.stack, stack_pushFree] at ha
    rcases List.mem_append.mp ha with ha | ha
    · exact h.freed a ha
    · rw [List.mem_singleton.mp ha]
      exact ⟨hAligned, hPositive⟩
  · rw [hSame.nextVirtual]
    exact h.positive

/-! ## A sound record -/

/-- Everything lent is a page of its own. -/
structure Sound (l : Lent) : Prop where
  whole : Whole l.vm l.held
  pages : ∀ p ∈ l.heap ++ l.user, IsPage p

variable {l l' : Lent}

theorem Sound.nodup (h : Sound l) : l.held.Nodup := (List.nodup_append.mp h.whole.placed.nodup).1

/-- The page for the heap. -/
theorem Sound.heapPage {flag p : Nat} (h : Sound l) (hOk : l.roomy .heapPage = true)
    (hCall : (lending ptr).heapPage flag l = some (p, l')) :
    Sound l' ∧ Reaches 1 l.vm l'.vm ∧ l'.user = l.user ∧ l'.kernel = l.kernel ∧
      (p = 0 ∧ (allocate 4096 l.vm.pmm).1 = 0 ∧ l'.heap = l.heap ∨
        IsPage p ∧ pageOf p ∉ l.held ∧ l'.heap = p :: l.heap) := by
  obtain ⟨⟨v, vm⟩, hPage, hEq⟩ := Option.map_eq_some_iff.mp hCall
  cases hEq
  obtain ⟨hReaches, ⟨rfl, hFrame, hWhole⟩ | ⟨hIs, hWhole⟩⟩ :=
    h.whole.allocatePage (of_decide_eq_true hOk) hPage
  · exact ⟨⟨hWhole, h.pages⟩, hReaches, rfl, rfl, Or.inl ⟨rfl, hFrame, rfl⟩⟩
  · have hNonzero : v ≠ 0 := by
      have := hIs.2.1
      omega
    have hNodup := (List.nodup_append.mp hWhole.placed.nodup).1
    refine ⟨⟨?_, ?_⟩, hReaches, rfl, rfl,
      Or.inr ⟨hIs, (List.nodup_cons.mp hNodup).1, if_neg hNonzero⟩⟩
    · simpa only [Lent.held, if_neg hNonzero, List.map_cons, List.cons_append] using hWhole
    · intro q hq
      simp only [if_neg hNonzero, List.cons_append, List.mem_cons] at hq
      rcases hq with rfl | hq
      · exact hIs
      · exact h.pages q hq

/-- The page for a user stack. -/
theorem Sound.allocatePage {flag p : Nat} (h : Sound l) (hOk : l.roomy .allocatePage = true)
    (hCall : (lending ptr).allocatePage flag l = some (p, l')) :
    Sound l' ∧ l'.heap = l.heap ∧ l'.kernel = l.kernel ∧
      (p = 0 ∧ l'.user = l.user ∨ IsPage p ∧ pageOf p ∉ l.held ∧ l'.user = p :: l.user) := by
  obtain ⟨⟨v, vm⟩, hPage, hEq⟩ := Option.map_eq_some_iff.mp hCall
  cases hEq
  obtain ⟨-, ⟨rfl, -, hWhole⟩ | ⟨hIs, hWhole⟩⟩ :=
    h.whole.allocatePage (of_decide_eq_true hOk) hPage
  · exact ⟨⟨hWhole, h.pages⟩, rfl, rfl, Or.inl ⟨rfl, rfl⟩⟩
  · have hNonzero : v ≠ 0 := by
      have := hIs.2.1
      omega
    have hNodup := (List.nodup_append.mp hWhole.placed.nodup).1
    refine ⟨⟨⟨placed_perm hWhole.placed ?_, hWhole.freed, hWhole.positive⟩, ?_⟩, rfl, rfl,
      Or.inr ⟨hIs, (List.nodup_cons.mp hNodup).1, if_neg hNonzero⟩⟩
    · simp only [Lent.held, if_neg hNonzero, List.map_cons, List.cons_append]
      exact List.perm_middle.symm
    · intro q hq
      simp only [if_neg hNonzero, List.mem_append, List.mem_cons] at hq
      rcases hq with hq | rfl | hq
      · exact h.pages q (List.mem_append_left _ hq)
      · exact hIs
      · exact h.pages q (List.mem_append_right _ hq)

/-- The pages for a kernel stack. -/
theorem Sound.allocatePagesContig {count : Int} {flag v : Nat} (h : Sound l)
    (hOk : l.roomy (.allocatePagesContig count) = true)
    (hCall : (lending ptr).allocatePagesContig count flag l = some (v, l')) :
    Sound l' ∧ l'.heap = l.heap ∧ l'.user = l.user ∧
      (v = 0 ∧ l'.kernel = l.kernel ∨
        v = l.vm.nextVirtual ∧ v % 4096 = 0 ∧ 0 < v ∧ v + count.toNat * 4096 < 2 ^ 32 ∧
          (∀ p ∈ pagesFrom v count, p ∉ l.held) ∧ l'.kernel = pagesFrom v count ++ l.kernel) := by
  obtain ⟨⟨v', vm⟩, hRange, hEq⟩ := Option.map_eq_some_iff.mp hCall
  cases hEq
  rcases h.whole.allocatePagesContig (of_decide_eq_true hOk) hRange with
    ⟨rfl, hWhole⟩ | ⟨hStart, hEnd, hWhole⟩
  · exact ⟨⟨hWhole, h.pages⟩, rfl, rfl, Or.inl ⟨rfl, rfl⟩⟩
  · have hPositive := h.whole.positive
    have hAligned := h.whole.placed.aligned
    have hNonzero : v' ≠ 0 := by omega
    have hNodup := (List.nodup_append.mp hWhole.placed.nodup).1
    have hApart := (List.nodup_append.mp hNodup).2.2
    refine ⟨⟨⟨placed_perm hWhole.placed ?_, hWhole.freed, hWhole.positive⟩, h.pages⟩, rfl, rfl,
      Or.inr ⟨hStart, by omega, by omega, hEnd, fun p hp hIn => hApart p hp p hIn rfl,
        if_neg hNonzero⟩⟩
    simp only [Lent.held, if_neg hNonzero]
    exact (List.perm_append_comm_assoc _ _ _).trans
      ((List.perm_append_comm_assoc _ _ _).append_left _)

/-- The first page of a kernel stack is given back. -/
theorem Sound.freePage {addr : Nat} (h : Sound l) (hAligned : addr % 4096 = 0)
    (hPositive : 0 < addr) (hIn : pageOf addr ∈ l.kernel)
    (hOk : l.roomy (.freePage addr) = true)
    (hCall : (lending ptr).freePage addr l = some l') :
    Sound l' ∧ l'.heap = l.heap ∧ l'.user = l.user ∧
      l'.kernel = l.kernel.filter (· ≠ pageOf addr) := by
  obtain ⟨vm, hFree, rfl⟩ := Option.map_eq_some_iff.mp hCall
  have hWhole := h.whole.freePage hAligned hPositive (of_decide_eq_true hOk) hFree
  have hNodup := h.nodup
  unfold Lent.held at hNodup
  obtain ⟨-, hRest, hHeap⟩ := List.nodup_append.mp hNodup
  obtain ⟨-, -, hUser⟩ := List.nodup_append.mp hRest
  have hHeld : l.held.filter (· ≠ pageOf addr) =
      l.heap.map pageOf ++ (l.user.map pageOf ++ l.kernel.filter (· ≠ pageOf addr)) := by
    unfold Lent.held
    rw [List.filter_append, List.filter_append]
    congr 1
    · refine List.filter_eq_self.mpr fun p hp => decide_eq_true ?_
      exact hHeap p hp _ (List.mem_append_right _ hIn)
    · congr 1
      refine List.filter_eq_self.mpr fun p hp => decide_eq_true ?_
      exact hUser p hp _ hIn
  rw [hHeld] at hWhole
  exact ⟨⟨hWhole, h.pages⟩, rfl, rfl, rfl⟩

/-! ## The pages of the heap -/

/-- The heap has taken at most `n` pages, and nobody else has taken any. -/
structure HeapGrown (n : Nat) (l l' : Lent) : Prop where
  sound : Sound l'
  reaches : Reaches n l.vm l'.vm
  user : l'.user = l.user
  kernel : l'.kernel = l.kernel
  held : ∀ q ∈ l.held, q ∈ l'.held

theorem HeapGrown.trans {m n : Nat} {l₁ l₂ l₃ : Lent} (h₁ : HeapGrown m l₁ l₂)
    (h₂ : HeapGrown n l₂ l₃) : HeapGrown (m + n) l₁ l₃ where
  sound := h₂.sound
  reaches := by
    have hFirst := h₁.reaches
    have hSecond := h₂.reaches
    unfold Reaches at *
    omega
  user := h₂.user.trans h₁.user
  kernel := h₂.kernel.trans h₁.kernel
  held q hq := h₂.held q (h₁.held q hq)

variable {ok : Lent → PageCall → Bool}

theorem asks_grown (hOk : ∀ l c, ok l c = true → l.roomy c = true) (h : Sound l)
    (hAsks : Asks ((lending ptr).guard ok).heapPage l l') : HeapGrown 1 l l' := by
  rcases hAsks with rfl | ⟨flag, page, hCall⟩
  · exact ⟨h, ⟨Nat.le_refl _, Nat.le_add_right _ _⟩, rfl, rfl, fun _ hq => hq⟩
  · obtain ⟨hCond, hPage⟩ := guard_some hCall
    obtain ⟨hSound, hReaches, hUser, hKernel, hCase⟩ := h.heapPage (hOk _ _ hCond) hPage
    refine ⟨hSound, hReaches, hUser, hKernel, fun q hq => ?_⟩
    rcases hCase with ⟨-, -, hHeap⟩ | ⟨-, -, hHeap⟩
    · simpa only [Lent.held, hHeap, hUser, hKernel] using hq
    · rw [Lent.held, hHeap, hUser, hKernel]
      exact List.mem_cons_of_mem _ hq

/-- **What `kmalloc` takes** of the pages. -/
theorem kmalloc_grown (hOk : ∀ l c, ok l c = true → l.roomy c = true) (h : Sound l)
    {size flag r : Nat} {heap heap' : Kmalloc.Heap}
    (hRun : Kmalloc.kmalloc ((lending ptr).guard ok).heapPage size flag heap l =
      some (r, heap', l')) : HeapGrown 2 l l' := by
  obtain ⟨l₁, hFirst, hSecond⟩ := kmalloc_asks hRun
  have hGrown := asks_grown hOk h hFirst
  exact hGrown.trans (asks_grown hOk hGrown.sound hSecond)

/-- Nobody else takes pages for the heap. -/
theorem guard_heap {l l' : Lent} :
    (∀ count flag v, ((lending ptr).guard ok).allocatePagesContig count flag l = some (v, l') →
      l'.heap = l.heap) ∧
    (∀ flag v, ((lending ptr).guard ok).allocatePage flag l = some (v, l') → l'.heap = l.heap) ∧
    ∀ addr, ((lending ptr).guard ok).freePage addr l = some l' → l'.heap = l.heap := by
  refine ⟨fun count flag v h => ?_, fun flag v h => ?_, fun addr h => ?_⟩
  · obtain ⟨r, -, hEq⟩ := Option.map_eq_some_iff.mp (guard_some h).2
    cases hEq
    rfl
  · obtain ⟨r, -, hEq⟩ := Option.map_eq_some_iff.mp (guard_some h).2
    cases hEq
    rfl
  · obtain ⟨vm, -, rfl⟩ := Option.map_eq_some_iff.mp (guard_some h).2
    rfl

theorem supplied_roomy (l : Lent) (c : PageCall) (h : l.supplied c = true) :
    l.roomy c = true := by
  cases c with
  | heapPage => exact ((Bool.and_eq_true _ _).mp h).2
  | _ => exact h

theorem pageOf_mem_pagesFrom {start : Nat} {count : Int} (hStart : start < 2 ^ 32)
    (hCount : 0 < count) : pageOf start ∈ pagesFrom start count := by
  refine List.mem_map.mpr ⟨0, List.mem_range.mpr (by omega), ?_⟩
  rw [Nat.zero_mul, Nat.add_zero, Nat.mod_eq_of_lt hStart]

/-- Pages that are not the same page are apart. -/
theorem isPage_apart {p q : Nat} (hp : IsPage p) (hq : IsPage q) (hne : pageOf p ≠ pageOf q) :
    (pageExtent p).Apart (pageExtent q) := by
  obtain ⟨hpAligned, -, -⟩ := hp
  obtain ⟨hqAligned, -, -⟩ := hq
  apply Extent.apart_of_le
  unfold pageOf at hne
  simp only [pageExtent, pageSize]
  omega

/-- **The heap gets fresh pages.** -/
theorem lending_provides (ptr : Vm → Nat → Option Nat) :
    Provides ((lending ptr).guard Lent.supplied).heapPage
      (fun pages l => Sound l ∧ l.heap = pages) := by
  rintro pages flag l page l' ⟨hSound, rfl⟩ hCall
  obtain ⟨hOk, hPage⟩ := guard_some hCall
  obtain ⟨hFrame, hRoomy⟩ := (Bool.and_eq_true _ _).mp hOk
  obtain ⟨hSound', -, -, -, ⟨-, hNone, -⟩ | ⟨hIs, hNew, hHeap⟩⟩ := hSound.heapPage hRoomy hPage
  · exact absurd hNone (of_decide_eq_true hFrame)
  · refine ⟨⟨?_, Nat.le_of_lt hIs.2.2, fun q hq => ?_⟩, hSound', hHeap⟩
    · have := hIs.2.1
      omega
    · refine isPage_apart hIs (hSound.pages q (List.mem_append_left _ hq)) fun hSame => hNew ?_
      rw [hSame]
      exact List.mem_append_left _ (List.mem_map_of_mem hq)

end MiniKernel.Ports.PageLending

import MiniKernel.Ports.PagingSparing
import MiniKernel.Ports.PmmOwnership
import MiniKernel.Verified.Trace

/-!
# Recycling of virtual pages

Runs of `allocate_page`, `allocate_pages_contig` and `free_page`, with any
flags, counts and addresses, and with any meaning of table pointers: what is
handed out depends on the stack of freed pages and on `next_virtual` alone.

A page is in one of three places: held by a caller, on the stack, or not yet
reached by `next_virtual`.  `free_page` puts every address it is given on the
stack, so this is kept only by the frees of a page that is below
`next_virtual` and not on the stack already; with those, no page is held
twice.  The stack and `next_virtual` are variables of the kernel, which the
calls of the run have to leave alone.
-/

namespace MiniKernel.Ports.PagingRecycling

open MiniKernel.Verified.PageWords
open MiniKernel.Verified.Trace
open MiniKernel.Ports.Pmm
open MiniKernel.Ports.Paging
open MiniKernel.Ports.PagingSparing

inductive Event
  | allocatePage (flag : Nat)
  | allocatePagesContig (count : Int) (flag : Nat)
  | freePage (addr : Nat)
  deriving Repr, DecidableEq

/-- Virtual memory and the pages handed out and not freed since. -/
structure State where
  vm : Vm
  held : List Nat

/-- The pages of a range that starts at `start`. -/
def pagesFrom (start : Nat) (count : Int) : List Nat :=
  (List.range count.toNat).map fun k => pageOf ((start + k * 4096) % 2 ^ 32)

/-- One call.  An address is 32 bits wide. -/
def step (ptr : Vm → Nat → Option Nat) (s : State) : Event → Option State
  | .allocatePage flag =>
      (allocatePage ptr flag s.vm).map fun r =>
        { vm := r.2, held := if r.1 = 0 then s.held else pageOf r.1 :: s.held }
  | .allocatePagesContig count flag =>
      (allocatePagesContig ptr count flag s.vm).map fun r =>
        { vm := r.2, held := if r.1 = 0 then s.held else pagesFrom r.1 count ++ s.held }
  | .freePage addr =>
      if addr < 2 ^ 32 then
        (freePage ptr addr s.vm).map fun vm =>
          { vm := vm, held := s.held.filter (· ≠ pageOf addr) }
      else none

/-- The call keeps the three places apart: `next_virtual` does not wrap, and a
freed page is below it, not on the stack, and finds room there. -/
def Recyclable (s : State) : Event → Prop
  | .allocatePage _ =>
      (allocate 4096 s.vm.pmm).1 ≠ 0 → s.vm.freeCount = 0 → s.vm.nextVirtual + 4096 < 2 ^ 32
  | .allocatePagesContig count _ =>
      0 ≤ count ∧ s.vm.nextVirtual + count.toNat * 4096 < 2 ^ 32
  | .freePage addr =>
      pageOf addr ∉ (stack s.vm).map pageOf ∧ addr < s.vm.nextVirtual ∧
        s.vm.freeCount < maxFreePages

instance (s : State) : (e : Event) → Decidable (Recyclable s e)
  | .allocatePage _ => inferInstanceAs (Decidable (_ → _ → _))
  | .allocatePagesContig .. => inferInstanceAs (Decidable (_ ∧ _))
  | .freePage _ => inferInstanceAs (Decidable (_ ∧ _))

/-- The call leaves the kernel's own memory alone: it succeeds without it. -/
def Spares (layout : Layout) (ptr : Vm → Nat → Option Nat) (s : State) (e : Event) : Prop :=
  (step ptr s e).isSome → (step (sparing layout ptr) s e).isSome

instance (layout : Layout) (ptr : Vm → Nat → Option Nat) (s : State) (e : Event) :
    Decidable (Spares layout ptr s e) :=
  inferInstanceAs (Decidable (_ → _))

/-- The call keeps the three places apart, and their records where they are. -/
def Careful (layout : Layout) (ptr : Vm → Nat → Option Nat) (s : State) (e : Event) : Prop :=
  Recyclable s e ∧ Spares layout ptr s e

instance (layout : Layout) (ptr : Vm → Nat → Option Nat) (s : State) (e : Event) :
    Decidable (Careful layout ptr s e) :=
  inferInstanceAs (Decidable (_ ∧ _))

/-! ## The three places -/

/-- No page is in two places or in one place twice. -/
structure Placed (vm : Vm) (held : List Nat) : Prop where
  nodup : (held ++ (stack vm).map pageOf).Nodup
  below : ∀ p ∈ held ++ (stack vm).map pageOf, p < pageOf vm.nextVirtual
  aligned : vm.nextVirtual % 4096 = 0
  range : vm.nextVirtual < 2 ^ 32

variable {ptr : Vm → Nat → Option Nat} {vm vm' : Vm} {held : List Nat}

theorem Placed.same (h : Placed vm held) (hSame : SameVirtual vm vm') : Placed vm' held where
  nodup := by rw [hSame.stack]; exact h.nodup
  below := by rw [hSame.stack, hSame.nextVirtual]; exact h.below
  aligned := by rw [hSame.nextVirtual]; exact h.aligned
  range := by rw [hSame.nextVirtual]; exact h.range

/-- Pages below `next_virtual` are pages of the 32-bit address space. -/
theorem Placed.lt (h : Placed vm held) {p : Nat} (hp : p ∈ held ++ (stack vm).map pageOf) :
    p < 2 ^ 20 := by
  have hBelow := h.below p hp
  have hRange := h.range
  unfold pageOf at hBelow
  omega

/-- Callers may drop pages. -/
theorem Placed.drop {held' : List Nat} (h : Placed vm held) (hSub : held'.Sublist held) :
    Placed vm held' where
  nodup := h.nodup.sublist (hSub.append_right _)
  below p hp := h.below p ((hSub.append_right _).subset hp)
  aligned := h.aligned
  range := h.range

/-- The page `allocate_page` takes is held by nobody, and then by the caller. -/
theorem Placed.take (h : Placed vm held)
    (hWrap : vm.freeCount = 0 → vm.nextVirtual + 4096 < 2 ^ 32) :
    Placed (takeVirtual vm).2 (pageOf (takeVirtual vm).1 :: held) := by
  unfold takeVirtual
  by_cases hCount : 0 < vm.freeCount
  · simp only [if_pos hCount]
    obtain ⟨n, hn⟩ : ∃ n, vm.freeCount = n + 1 := ⟨vm.freeCount - 1, by omega⟩
    have hStack : stack vm =
        stack { vm with freeCount := vm.freeCount - 1 } ++ [vm.freeVirtual n] := by
      unfold stack
      rw [hn, List.range_succ, List.map_append]
      rfl
    have hPerm : (held ++ (stack vm).map pageOf).Perm
        (pageOf (vm.freeVirtual n) :: (held ++
          (stack { vm with freeCount := vm.freeCount - 1 }).map pageOf)) := by
      rw [hStack, List.map_append, ← List.append_assoc]
      exact List.perm_append_comm
    rw [show vm.freeCount - 1 = n by omega] at hPerm ⊢
    exact
      { nodup := hPerm.nodup_iff.mp h.nodup
        below := fun p hp => h.below p (hPerm.mem_iff.mpr hp)
        aligned := h.aligned
        range := h.range }
  · have hNext := hWrap (by omega)
    have hAligned := h.aligned
    have hBump : (vm.nextVirtual + 4096) % 2 ^ 32 = vm.nextVirtual + 4096 :=
      Nat.mod_eq_of_lt hNext
    have hPage : pageOf (vm.nextVirtual + 4096) = pageOf vm.nextVirtual + 1 := by
      unfold pageOf
      omega
    simp only [if_neg hCount, hBump]
    refine
      { nodup := ?_
        below := ?_
        aligned := by simp only; omega
        range := hNext }
    · refine List.nodup_cons.mpr ⟨fun hIn => ?_, h.nodup⟩
      exact absurd (h.below _ hIn) (Nat.lt_irrefl _)
    · intro p hp
      simp only [hPage]
      rcases List.mem_cons.mp hp with rfl | hp
      · exact Nat.lt_succ_self _
      · exact Nat.lt_succ_of_lt (h.below p hp)

/-- A range of new pages is held by nobody, and then by the caller. -/
theorem Placed.range_new {count : Int} (h : Placed vm held) (hCount : 0 ≤ count)
    (hWrap : vm.nextVirtual + count.toNat * 4096 < 2 ^ 32) :
    Placed { vm with nextVirtual := (((vm.nextVirtual : Int) + count * 4096) % 2 ^ 32).toNat }
      (pagesFrom vm.nextVirtual count ++ held) := by
  obtain ⟨n, rfl⟩ := Int.eq_ofNat_of_zero_le hCount
  simp only [Int.toNat_natCast] at hWrap
  have hAligned := h.aligned
  have hBump : (((vm.nextVirtual : Int) + (n : Int) * 4096) % 2 ^ 32).toNat =
      vm.nextVirtual + n * 4096 := by omega
  have hPage : pageOf (vm.nextVirtual + n * 4096) = pageOf vm.nextVirtual + n := by
    unfold pageOf
    omega
  have hPages : pagesFrom vm.nextVirtual n =
      (List.range n).map fun k => pageOf vm.nextVirtual + k := by
    unfold pagesFrom
    rw [Int.toNat_natCast]
    apply List.map_congr_left
    intro k hk
    have := List.mem_range.mp hk
    unfold pageOf
    omega
  rw [hBump, hPages]
  refine
    { nodup := ?_
      below := ?_
      aligned := by simp only; omega
      range := hWrap }
  · rw [List.append_assoc]
    refine List.nodup_append.mpr ⟨?_, h.nodup, ?_⟩
    · exact List.nodup_range.map fun a b hab => by simpa using hab
    · intro p hp q hq hpq
      obtain ⟨k, -, rfl⟩ := List.mem_map.mp hp
      have := h.below q hq
      omega
  · intro p hp
    simp only [hPage]
    rw [List.append_assoc] at hp
    rcases List.mem_append.mp hp with hp | hp
    · obtain ⟨k, hk, rfl⟩ := List.mem_map.mp hp
      have := List.mem_range.mp hk
      omega
    · exact Nat.lt_of_lt_of_le (h.below p hp) (Nat.le_add_right _ _)

/-- A freed page moves from its holder, if it has one, to the stack. -/
theorem Placed.push {addr : Nat} (h : Placed vm held)
    (hNot : pageOf addr ∉ (stack vm).map pageOf) (hBelow : addr < vm.nextVirtual) :
    Placed (pushFree addr vm) (held.filter (· ≠ pageOf addr)) := by
  have hStack := stack_pushFree addr vm
  have hAligned := h.aligned
  have hPage : pageOf addr < pageOf vm.nextVirtual := by
    unfold pageOf
    omega
  have hLess := h.drop (List.filter_sublist (p := (· ≠ pageOf addr)))
  refine
    { nodup := ?_
      below := ?_
      aligned := h.aligned
      range := h.range }
  · rw [hStack, List.map_append, ← List.append_assoc]
    refine List.nodup_append.mpr ⟨hLess.nodup, by simp, ?_⟩
    intro p hp q hq hpq
    simp only [List.map_cons, List.map_nil, List.mem_singleton] at hq
    subst hq
    subst hpq
    rcases List.mem_append.mp hp with hp | hp
    · exact of_decide_eq_true (List.mem_filter.mp hp).2 rfl
    · exact hNot hp
  · intro p hp
    rw [hStack, List.map_append, ← List.append_assoc] at hp
    rcases List.mem_append.mp hp with hp | hp
    · exact hLess.below p hp
    · simp only [List.map_cons, List.map_nil, List.mem_singleton] at hp
      exact hp ▸ hPage

/-! ## Runs -/

/-- **One recyclable call keeps the places apart.** -/
theorem step_placed (s : State) (e : Event) (s' : State) (h : Placed s.vm s.held)
    (hOk : Recyclable s e) (hStep : step ptr s e = some s') : Placed s'.vm s'.held := by
  cases e with
  | allocatePage flag =>
      obtain ⟨⟨v, vm⟩, hCall, rfl⟩ := Option.map_eq_some_iff.mp hStep
      unfold allocatePage at hCall
      by_cases hFail : (allocate 4096 s.vm.pmm).1 = 0
      · rw [if_pos hFail] at hCall
        cases hCall
        exact h.same ⟨rfl, rfl, rfl⟩
      · rw [if_neg hFail] at hCall
        obtain ⟨vm₁, hMap, hEq⟩ := Option.map_eq_some_iff.mp hCall
        cases hEq
        have hStart : Placed { s.vm with pmm := (allocate 4096 s.vm.pmm).2 } s.held :=
          h.same ⟨rfl, rfl, rfl⟩
        have hTaken := (hStart.take (hOk hFail)).same (mapPage_same hMap)
        simp only
        split
        · exact hTaken.drop (List.sublist_cons_self _ _)
        · exact hTaken
  | allocatePagesContig count flag =>
      obtain ⟨⟨v, vm⟩, hCall, rfl⟩ := Option.map_eq_some_iff.mp hStep
      unfold allocatePagesContig at hCall
      obtain ⟨⟨ok, vm₁⟩, hLoop, hEq⟩ := Option.map_eq_some_iff.mp hCall
      have hTaken := (h.range_new hOk.1 hOk.2).same (mapContig_same hLoop)
      cases hEq
      simp only
      by_cases hZero : (if ok = true then s.vm.nextVirtual else 0) = 0
      · rw [if_pos hZero]
        exact hTaken.drop (List.sublist_append_right _ _)
      · rw [if_neg hZero]
        split
        · exact hTaken
        · next hNot => exact absurd (if_neg hNot) hZero
  | freePage addr =>
      simp only [step] at hStep
      split at hStep
      · obtain ⟨vm, hCall, rfl⟩ := Option.map_eq_some_iff.mp hStep
        exact (h.push hOk.1 hOk.2.1).same (freePage_same hCall)
      · simp at hStep

theorem step_sparing {layout : Layout} {s s' : State} {e : Event}
    (h : step (sparing layout ptr) s e = some s') :
    step ptr s e = some s' ∧ Leaves layout s.vm s'.vm := by
  cases e with
  | allocatePage flag =>
      obtain ⟨r, hCall, rfl⟩ := Option.map_eq_some_iff.mp h
      obtain ⟨hSame, hLeaves⟩ := allocatePage_sparing hCall
      exact ⟨by rw [step, hSame, Option.map_some], hLeaves⟩
  | allocatePagesContig count flag =>
      obtain ⟨r, hCall, rfl⟩ := Option.map_eq_some_iff.mp h
      obtain ⟨hSame, hLeaves⟩ := allocatePagesContig_sparing hCall
      exact ⟨by rw [step, hSame, Option.map_some], hLeaves⟩
  | freePage addr =>
      obtain ⟨hAddr, h⟩ := Option.ite_none_right_eq_some.mp h
      obtain ⟨vm, hCall, rfl⟩ := Option.map_eq_some_iff.mp h
      obtain ⟨hSame, hLeaves⟩ := freePage_sparing hCall
      exact ⟨by rw [step, if_pos hAddr, hSame, Option.map_some], hLeaves⟩

/-- **A call that spares the kernel's own memory leaves it as it is.** -/
theorem Spares.leaves {layout : Layout} {s s' : State} {e : Event} (h : Spares layout ptr s e)
    (hStep : step ptr s e = some s') : Leaves layout s.vm s'.vm := by
  obtain ⟨t, hCall⟩ := Option.isSome_iff_exists.mp (h (Option.isSome_of_mem hStep))
  obtain ⟨hSame, hLeaves⟩ := step_sparing hCall
  obtain rfl := Option.some.inj (hStep.symm.trans hSame)
  exact hLeaves

/-- So does a run of such calls. -/
theorem spares_leaves {layout : Layout} {s s' : State} {events : List Event}
    (h : Meets (step ptr) (Spares layout ptr) s events)
    (hRun : exec (step ptr) s events = some s') : Leaves layout s.vm s'.vm :=
  h.invariant (I := fun t => Leaves layout s.vm t.vm)
    (fun _ _ _ hLeaves hSpares hStep => hLeaves.trans (hSpares.leaves hStep))
    (Leaves.of_eq rfl rfl) hRun

theorem boot_placed (layout : Layout) (pmm : Table) (mem : Verified.ByteMemory.Mem)
    (freeVirtual : Nat → Nat) : Placed (boot layout pmm mem freeVirtual) [] where
  nodup := List.nodup_nil
  below := by simp [stack, boot, buildFirstPage, initVirtualAllocator]
  aligned := by
    simp only [boot, buildFirstPage, initVirtualAllocator, and_mask]
    exact frameOf_mod _
  range := by
    simp only [boot, buildFirstPage, initVirtualAllocator, and_mask]
    have := frameOf_le (layout.kernelEnd + 4095)
    omega

/-- The linked image on a PC, with empty memory. -/
def pcBoot : State where
  vm := boot image PmmOwnership.pcMap (fun _ => 0) (fun _ => 0)
  held := []

end MiniKernel.Ports.PagingRecycling

import MiniKernel.Ports.PagingCalls
import MiniKernel.Ports.PagingRecycling

/-!
# Addresses the kernel keeps using

Three pages are used at fixed addresses after paging is on: the memory map of
the firmware in page `0`, the stack below `0x90000`, which `boot.asm` and
`init_tss` both take, and the text screen at `0xB8000`.  `build_first_page`
maps them to themselves, and `next_virtual` walks over them from the end of the
image: a page of `allocate_page` may be one of the three.

A run that hands out none of them, and leaves the kernel's own memory alone,
keeps all three translations.
-/

namespace MiniKernel.Ports.PagingFixed

open MiniKernel.Verified.ByteMemory
open MiniKernel.Verified.PageWords
open MiniKernel.Verified.Trace
open MiniKernel.Ports.Pmm
open MiniKernel.Ports.Paging
open MiniKernel.Ports.PagingTables
open MiniKernel.Ports.PagingIdentity hiding Event step
open MiniKernel.Ports.PagingCalls
open MiniKernel.Ports.PagingRecycling

/-- The pages of the E820 table, of the boot stack and of the text screen. -/
def fixedPages : List Nat := [0x00, 0x8F, 0xB8]

/-- The page translates to itself. -/
def Own (vm : Vm) (p : Nat) : Prop :=
  Present (entryWord vm p) ∧ frameOf (entryWord vm p) = p * 4096

theorem fixed_lt {p : Nat} (hp : p ∈ fixedPages) : p < 1024 := by
  simp only [fixedPages, List.mem_cons, List.not_mem_nil, or_false] at hp
  omega

variable {vm vm' : Vm}

/-- `map_page` is not asked for one of the three pages, and keeps the tables. -/
def MapClear (physical virtual flags : Nat) (vm : Vm) : Prop :=
  pageOf virtual ∉ fixedPages ∧ MapOk physical virtual flags vm

instance (physical virtual flags : Nat) (vm : Vm) :
    Decidable (MapClear physical virtual flags vm) :=
  inferInstanceAs (Decidable (_ ∧ _))

/-- `free_page` is not applied to one of the three pages, nor to a table. -/
def FreeClear (addr : Nat) (vm : Vm) : Prop := pageOf addr ∉ fixedPages ∧ FreeOk addr vm

/-- The three pages translate to themselves. -/
def FixedOwn (vm : Vm) : Prop := ∀ p ∈ fixedPages, Own vm p

theorem Own.congr {p : Nat} (h : Own vm p) (hWord : entryWord vm' p = entryWord vm p) :
    Own vm' p := by
  unfold Own
  rw [hWord]
  exact h

/-- An edit of another page leaves the three alone. -/
theorem FixedOwn.edit {page word : Nat} (h : FixedOwn vm) (hPage : page ∉ fixedPages)
    (hEdits : Edits vm vm' page word) : FixedOwn vm' := by
  intro p hp
  have hp' := fixed_lt hp
  have hWord := (hEdits p (by omega)).resolve_right fun hEdit => hPage (hEdit.1 ▸ hp)
  exact (h p hp).congr hWord

theorem fixed_invariant : WordInvariant MapClear FreeClear FixedOwn where
  mapOk h := h.2
  freeOk h := h.2
  map h hOk hEdits := h.edit hOk.1 hEdits
  free h hOk hEdits := h.edit hOk.1 hEdits
  congr h hMem hDirectory p hp := (h p hp).congr
    (entryWord_congr (sameTable_of_eq (by rw [hDirectory])) fun _ x _ _ => by rw [hMem])

/-- The pages of a range that was mapped are none of the three. -/
theorem contig_clear {start flag : Nat} {ks : List Nat}
    (hOk : ContigMeets MapClear start flag ks vm)
    (hLoop : mapContig pageWalk start flag ks vm = some (true, vm')) :
    ∀ k ∈ ks, pageOf ((start + k * 4096) % 2 ^ 32) ∉ fixedPages := by
  induction ks generalizing vm with
  | nil => simp
  | cons k ks ih =>
      simp only [mapContig] at hLoop
      split at hLoop
      · cases hLoop
      · next hSome =>
          obtain ⟨vm₁, hMap, hRest⟩ := Option.bind_eq_some_iff.mp hLoop
          obtain ⟨⟨hClear, -⟩, hTurns⟩ := hOk hSome
          intro k' hk'
          rcases List.mem_cons.mp hk' with rfl | hk'
          · exact hClear
          · exact ih (hTurns vm₁ hMap) hRest k' hk'

/-! ## Runs -/

/-- The call as one on virtual memory alone. -/
def call : Event → PagingIdentity.Event
  | .allocatePage flag => .allocatePage flag
  | .allocatePagesContig count flag => .allocatePagesContig count flag
  | .freePage addr => .freePage addr

/-- Flags are 32 bits wide, and a freed page is held. -/
def Proper (s : State) : Event → Prop
  | .allocatePage flag | .allocatePagesContig _ flag => flag < 2 ^ 32
  | .freePage addr => pageOf addr ∈ s.held

instance (s : State) : (e : Event) → Decidable (Proper s e)
  | .allocatePage _ => inferInstanceAs (Decidable (_ < _))
  | .allocatePagesContig .. => inferInstanceAs (Decidable (_ < _))
  | .freePage _ => inferInstanceAs (Decidable (_ ∈ _))

/-- No page the call maps is one of the three, the tables stay where the code looks
for them, and so does the kernel's own memory. -/
def Clear (layout : Layout) (s : State) (e : Event) : Prop :=
  (Proper s e ∧ Calls MapClear FreeOk s.vm (call e)) ∧ Spares layout pageWalk s.vm (call e)

instance (layout : Layout) (s : State) (e : Event) : Decidable (Clear layout s e) :=
  inferInstanceAs (Decidable ((_ ∧ _) ∧ _))

/-- The three pages are where they were, and nobody holds them. -/
structure Fixed (s : State) : Prop where
  identity : Identity s.vm
  bounded : Bounded s.vm
  own : FixedOwn s.vm
  held : ∀ p ∈ s.held, p ∉ fixedPages

theorem step_call {s s' : State} {e : Event} (hOk : Proper s e)
    (hStep : step pageWalk s e = some s') :
    PagingIdentity.step s.vm (call e) = some s'.vm := by
  cases e with
  | allocatePage flag =>
      obtain ⟨⟨v, vm⟩, hCall, rfl⟩ := Option.map_eq_some_iff.mp hStep
      rw [call, PagingIdentity.step, stepWith, if_pos (show flag < 2 ^ 32 from hOk), hCall,
        Option.map_some]
  | allocatePagesContig count flag =>
      obtain ⟨⟨v, vm⟩, hCall, rfl⟩ := Option.map_eq_some_iff.mp hStep
      rw [call, PagingIdentity.step, stepWith, if_pos (show flag < 2 ^ 32 from hOk), hCall,
        Option.map_some]
  | freePage addr =>
      obtain ⟨hAddr, hStep⟩ := Option.ite_none_right_eq_some.mp hStep
      obtain ⟨vm, hCall, rfl⟩ := Option.map_eq_some_iff.mp hStep
      rw [call, PagingIdentity.step, stepWith, if_pos hAddr, hCall]

/-- Nobody gets one of the three pages. -/
theorem Fixed.step_held {s s' : State} {e : Event} (h : Fixed s)
    (hOk : Proper s e ∧ Calls MapClear FreeOk s.vm (call e))
    (hStep : step pageWalk s e = some s') : ∀ p ∈ s'.held, p ∉ fixedPages := by
  cases e with
  | allocatePage flag =>
      obtain ⟨⟨v, vm⟩, hCall, rfl⟩ := Option.map_eq_some_iff.mp hStep
      by_cases hFail : (allocate 4096 s.vm.pmm).1 = 0
      · unfold allocatePage at hCall
        rw [if_pos hFail] at hCall
        cases hCall
        exact h.held
      · rw [allocatePage_some hFail] at hCall
        obtain ⟨vm₁, hMap, hEq⟩ := Option.map_eq_some_iff.mp hCall
        cases hEq
        intro p hp
        simp only at hp
        split at hp
        · exact h.held p hp
        · rcases List.mem_cons.mp hp with rfl | hp
          · exact (hOk.2 hFail).1
          · exact h.held p hp
  | allocatePagesContig count flag =>
      obtain ⟨⟨v, vm⟩, hCall, rfl⟩ := Option.map_eq_some_iff.mp hStep
      obtain ⟨⟨done, vm₁⟩, hLoop, hEq⟩ := Option.map_eq_some_iff.mp hCall
      cases hEq
      intro p hp
      cases done with
      | false => exact h.held p hp
      | true =>
          simp only [if_true] at hp
          split at hp
          · exact h.held p hp
          · rcases List.mem_append.mp hp with hp | hp
            · obtain ⟨k, hk, rfl⟩ := List.mem_map.mp hp
              exact contig_clear hOk.2 hLoop k hk
            · exact h.held p hp
  | freePage addr =>
      obtain ⟨-, hStep⟩ := Option.ite_none_right_eq_some.mp hStep
      obtain ⟨vm, hCall, rfl⟩ := Option.map_eq_some_iff.mp hStep
      exact fun p hp => h.held p (List.mem_of_mem_filter hp)

/-- **One clear call.** -/
theorem step_fixed (layout : Layout) (s : State) (e : Event) (s' : State) (h : Fixed s)
    (hOk : Clear layout s e) (hStep : step pageWalk s e = some s') : Fixed s' := by
  obtain ⟨hOk, -⟩ := hOk
  have hCalls : Calls MapClear FreeClear s.vm (call e) := by
    cases e with
    | allocatePage flag => exact hOk.2
    | allocatePagesContig count flag => exact hOk.2
    | freePage addr => exact ⟨h.held _ hOk.1, hOk.2⟩
  obtain ⟨hOwn, hIdentity, hBounded⟩ :=
    fixed_invariant.step h.identity h.bounded hCalls h.own (step_call hOk.1 hStep)
  exact ⟨hIdentity, hBounded, hOwn, h.step_held hOk hStep⟩

theorem boot_fixed (layout : Layout) (pmm : Table) (mem : Mem) (freeVirtual : Nat → Nat) :
    Fixed { vm := boot layout pmm mem freeVirtual, held := [] } where
  identity := (boot_invariant ..).1
  bounded := (boot_invariant ..).2
  own _ hp := boot_identity layout pmm mem freeVirtual (fixed_lt hp)
  held := by simp

/-- **The fixed addresses stay where they are** in every run whose calls hand out
none of their pages and keep the tables and the kernel's own memory: the E820
table, the boot stack and the text screen translate to themselves. -/
theorem fixed_addresses_identity {layout : Layout} {pmm : Table} {mem : Mem}
    {freeVirtual : Nat → Nat} {events : List Event} {s : State}
    (hRun : exec (step pageWalk) { vm := boot layout pmm mem freeVirtual, held := [] } events =
      some s)
    (hOk : Meets (step pageWalk) (Clear layout)
      { vm := boot layout pmm mem freeVirtual, held := [] } events) :
    ∀ p ∈ fixedPages, ∀ x < 4096, pageWalk s.vm (p * 4096 + x) = some (p * 4096 + x) := by
  have h := hOk.invariant (step_fixed layout) (boot_fixed layout pmm mem freeVirtual) hRun
  intro p hp x hx
  obtain ⟨hPresent, hFrame⟩ := h.own p hp
  have hPage : pageOf (p * 4096 + x) = p := by
    unfold pageOf
    omega
  rw [pageWalk_eq, hPage, if_pos hPresent, hFrame]
  congr 1
  omega

/-- Two pages in a row, the first freed and handed out again. -/
theorem fixed_addresses_identity_pcBoot :
    ∃ s, exec (step pageWalk) pcBoot
        [.allocatePagesContig 2 3, .freePage 0x26000, .allocatePage 7] = some s ∧
      s.held = [0x26, 0x27] ∧
      ∀ p ∈ fixedPages, ∀ x < 4096, pageWalk s.vm (p * 4096 + x) = some (p * 4096 + x) := by
  have hHeld : (exec (step pageWalk) pcBoot
      [.allocatePagesContig 2 3, .freePage 0x26000, .allocatePage 7]).map
        State.held = some [0x26, 0x27] := by
    rw [pcBoot, boot_eq]
    decide +kernel
  obtain ⟨s, hRun, hs⟩ := Option.map_eq_some_iff.mp hHeld
  exact ⟨s, hRun, hs, fixed_addresses_identity hRun (by rw [boot_eq]; decide +kernel)⟩

/-- An image that ends at `0x8D000`. -/
def longImage : Layout where
  pageTable := 0x89000
  kernelEnd := 0x8D000
  positive := by decide
  aligned := by decide
  inside := by decide
  low := by decide

/-- The four pages of the first kernel stack of a long image reach the boot
stack: its page is mapped to the third frame above 1 MiB. -/
theorem boot_stack_remapped :
    ∃ s, exec (step pageWalk)
        { vm := boot longImage PmmOwnership.pcMap (fun _ => 0) (fun _ => 0), held := [] }
        [.allocatePagesContig 4 3] = some s ∧
      s.held = [0x8D, 0x8E, 0x8F, 0x90] ∧ pageWalk s.vm 0x8F000 = some 0x102000 := by
  have hView : (exec (step pageWalk)
      { vm := boot longImage PmmOwnership.pcMap (fun _ => 0) (fun _ => 0), held := [] }
      [.allocatePagesContig 4 3]).map (fun s => (s.held, pageWalk s.vm 0x8F000)) =
        some ([0x8D, 0x8E, 0x8F, 0x90], some 0x102000) := by
    rw [boot_eq]
    decide +kernel
  obtain ⟨s, hRun, hs⟩ := Option.map_eq_some_iff.mp hView
  simp only [Prod.mk.injEq] at hs
  exact ⟨s, hRun, hs⟩

end MiniKernel.Ports.PagingFixed

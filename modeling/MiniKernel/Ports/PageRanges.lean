import MiniKernel.Ports.PageReports
import MiniKernel.Ports.PagingFrames

/-!
# Ranges and frames

`allocate` hands out 4096 bytes from any address on; `map_page`, `get_map` and
`free_page` know frames, which are the upper 20 bits of an address.  So the frame a page
is mapped to is the range that was handed out for it only if the range begins where a
page does, and `free_page` gives back an address the map has never handed out otherwise.

A page is held here together with the base of its range.  `ranges_exact` says that the
two views agree in every state of a run whose calls are `Sound`, on both ways through
`kernel()`.
-/

namespace MiniKernel.Ports.PageRanges

open MiniKernel.Verified.ByteMemory
open MiniKernel.Verified.Extents
open MiniKernel.Verified.PageWords
open MiniKernel.Verified.Trace
open MiniKernel.Ports.Pmm
open MiniKernel.Ports.PmmOwnership (extentOf Owned UsableAt has_join)
open MiniKernel.Ports.Paging
open MiniKernel.Ports.PagingTables
open MiniKernel.Ports.PagingIdentity (Identity MapOk mapPage_identity freePage_identity reach_new
  boot_invariant)
open MiniKernel.Ports.PagingRecycling (Placed boot_placed)
open MiniKernel.Ports.PagingFrames (frameAt)
open MiniKernel.Ports.PagingDraws (Usable)
open MiniKernel.Ports.PagingMaps (getMap_eq page_div_lt)
open MiniKernel.Ports.PageReports (Way unprepared)

/-! ## Runs -/

inductive Event
  | allocatePage (flag : Nat)
  | freePage (addr : Nat)
  deriving Repr, DecidableEq

/-- Virtual memory, and the pages handed out and not freed since, each with the base of
the range that `allocate` returned for it. -/
structure State where
  vm : Vm
  held : List (Nat × Nat)

/-- The pages that are held. -/
def State.pages (s : State) : List Nat := s.held.map Prod.fst

/-- One call; only held pages are freed. -/
def step (ptr : Vm → Nat → Option Nat) (s : State) : Event → Option State
  | .allocatePage flag =>
      if flag < 2 ^ 32 then
        (allocatePage ptr flag s.vm).map fun r =>
          { vm := r.2
            held :=
              if r.1 = 0 then s.held
              else (pageOf r.1, (allocate 4096 s.vm.pmm).1) :: s.held }
      else none
  | .freePage addr =>
      if addr < 2 ^ 32 ∧ pageOf addr ∈ s.pages then
        (freePage ptr addr s.vm).map fun vm =>
          { vm := vm, held := s.held.filter (·.1 ≠ pageOf addr) }
      else none

/-! ## What is asked of a page -/

/-- The page is mapped to the range, which is memory the boot map calls usable, and
`free_page` of any address in the page makes the whole range usable again. -/
structure Exact (ptr : Vm → Nat → Option Nat) (boot : List MemoryMap) (vm : Vm)
    (page base : Nat) : Prop where
  mapped : ∀ v, v < 2 ^ 32 → pageOf v = page → getMap ptr v vm = some base
  usable : ∀ x, (frameAt base).Has x → UsableAt boot x
  freed : ∀ v, v < 2 ^ 32 → pageOf v = page → ∃ vm', freePage ptr v vm = some vm' ∧
    ∀ x, (frameAt base).Has x → Usable vm'.pmm.entries x

/-- `map_page` finds the table of the page, or a frame for it, which begins where a page
does and is not that of another table. -/
def TableReady (v : Nat) (vm : Vm) : Prop :=
  HasTable vm (pageOf v / 1024) ∨
    (allocate 4096 vm.pmm).1 ≠ 0 ∧ (allocate 4096 vm.pmm).1 % 4096 = 0 ∧
      ∀ d < 1024, HasTable vm d → tableOf vm d ≠ (allocate 4096 vm.pmm).1

instance (v : Nat) (vm : Vm) : Decidable (TableReady v vm) :=
  inferInstanceAs (Decidable (_ ∨ _))

/-- The range begins where a page does, and `free` does not come upon an empty entry
there; the flags have `PAGE_PRESENT` and no bit of another frame; `next_virtual` does not
wrap; and the page has a table. -/
structure Whole (flag : Nat) (vm : Vm) : Prop where
  aligned : (allocate 4096 vm.pmm).1 % 4096 = 0
  first : ∀ e ∈ vm.pmm.entries.find? (·.base == (allocate 4096 vm.pmm).1), 0 < e.length
  present : Present (defaultFlags flag)
  bits : (allocate 4096 vm.pmm).1 ||| frameOf (defaultFlags flag) = (allocate 4096 vm.pmm).1
  room : vm.freeCount = 0 → vm.nextVirtual + 4096 < 2 ^ 32
  table : TableReady (takeVirtual { vm with pmm := (allocate 4096 vm.pmm).2 }).1
    (takeVirtual { vm with pmm := (allocate 4096 vm.pmm).2 }).2

theorem whole_iff (flag : Nat) (vm : Vm) :
    ((allocate 4096 vm.pmm).1 % 4096 = 0 ∧
      (∀ e ∈ vm.pmm.entries.find? (·.base == (allocate 4096 vm.pmm).1), 0 < e.length) ∧
      Present (defaultFlags flag) ∧
      (allocate 4096 vm.pmm).1 ||| frameOf (defaultFlags flag) = (allocate 4096 vm.pmm).1 ∧
      (vm.freeCount = 0 → vm.nextVirtual + 4096 < 2 ^ 32) ∧
      TableReady (takeVirtual { vm with pmm := (allocate 4096 vm.pmm).2 }).1
        (takeVirtual { vm with pmm := (allocate 4096 vm.pmm).2 }).2) ↔ Whole flag vm := by
  constructor
  · rintro ⟨hAligned, hFirst, hPresent, hBits, hRoom, hTable⟩
    exact ⟨hAligned, hFirst, hPresent, hBits, hRoom, hTable⟩
  · intro h
    exact ⟨h.aligned, h.first, h.present, h.bits, h.room, h.table⟩

instance (flag : Nat) (vm : Vm) : Decidable (Whole flag vm) :=
  decidable_of_iff _ (whole_iff flag vm)

/-- The call, among those that edit the tables. -/
def Event.call : Event → PagingIdentity.Event
  | .allocatePage flag => .allocatePage flag
  | .freePage addr => .freePage addr

/-- A frame that is found is whole, a freed page has room on the stack, the call leaves
the kernel's own memory alone, and with paging on the tables stay where the code looks
for them. -/
def Sound (way : Way) (layout : Layout) (s : State) (e : Event) : Prop :=
  (match e with
    | .allocatePage flag => (allocate 4096 s.vm.pmm).1 ≠ 0 → Whole flag s.vm
    | .freePage _ => s.vm.freeCount < maxFreePages) ∧ way.KeepsKernel layout s.vm e.call

instance (layout : Layout) (s : State) : (e : Event) → Decidable (Sound .normal layout s e)
  | .allocatePage flag =>
      inferInstanceAs (Decidable (((allocate 4096 s.vm.pmm).1 ≠ 0 → Whole flag s.vm) ∧
        PagingIdentity.KeepsKernel layout s.vm (.allocatePage flag)))
  | .freePage addr =>
      inferInstanceAs (Decidable (s.vm.freeCount < maxFreePages ∧
        PagingIdentity.KeepsKernel layout s.vm (.freePage addr)))

/-! ## The memory map -/

/-- The first entry based at the address is a frame in use. -/
def Leads (base : Nat) (es : List MemoryMap) : Prop :=
  ∃ e, es.find? (·.base == base) = some e ∧ e.length = 4096 ∧ e.type = 2

variable {boot es es' : List MemoryMap} {live : List Extent} {base : Nat}

/-- A segment may be replaced by one that is based nowhere else, as long as the entry in
use is not in it. -/
theorem Leads.replace {pre mid mid' post : List MemoryMap}
    (h : Leads base (pre ++ mid ++ post)) (hOld : ∀ e ∈ mid, e.base = base → e.type ≠ 2)
    (hNew : ∀ e ∈ mid', e.base = base → ∃ d ∈ mid, d.base = base) :
    Leads base (pre ++ mid' ++ post) := by
  obtain ⟨e, hFind, hLength, hType⟩ := h
  refine ⟨e, ?_, hLength, hType⟩
  rw [List.append_assoc, List.find?_append] at hFind ⊢
  cases hPre : pre.find? (·.base == base) with
  | some d =>
      rw [hPre, Option.some_or] at hFind
      exact hFind
  | none =>
      rw [hPre, Option.none_or, List.find?_append] at hFind
      have hMid : mid.find? (·.base == base) = none := by
        cases hSome : mid.find? (·.base == base) with
        | none => rfl
        | some d =>
            rw [hSome, Option.some_or] at hFind
            cases hFind
            have hBase := List.find?_some hSome
            exact absurd hType (hOld e (List.mem_of_find?_eq_some hSome) (beq_iff_eq.mp hBase))
      have hMid' : mid'.find? (·.base == base) = none := by
        refine List.find?_eq_none.mpr fun d hd hBase => ?_
        obtain ⟨c, hc, hAt⟩ := hNew d hd (beq_iff_eq.mp hBase)
        exact List.find?_eq_none.mp hMid c hc (beq_iff_eq.mpr hAt)
      rw [hMid, Option.none_or] at hFind
      rw [Option.none_or, List.find?_append, hMid', Option.none_or]
      exact hFind

/-- The entry that leads is the one a search from the front ends at. -/
theorem Leads.split {pre post : List MemoryMap} {e : MemoryMap}
    (h : Leads base (pre ++ e :: post)) (hBase : e.base = base)
    (hPre : ∀ x ∈ pre, x.base ≠ base) : e.length = 4096 := by
  obtain ⟨d, hFind, hLength, -⟩ := h
  have hNone : pre.find? (·.base == base) = none :=
    List.find?_eq_none.mpr fun x hx hAt => hPre x hx (beq_iff_eq.mp hAt)
  rw [List.find?_append, hNone, Option.none_or, List.find?_cons,
    beq_iff_eq.mpr hBase] at hFind
  cases hFind
  exact hLength

/-- Carving another frame. -/
theorem Leads.allocate {r : Nat} (h : Leads base es) (hOwned : Owned boot es live)
    (hLive : frameAt base ∈ live) (hAlloc : Allocated 4096 es r es') : Leads base es' := by
  cases hAlloc with
  | noCandidate => exact h
  | tableFull => exact h
  | @taken pre post e hBest =>
      obtain ⟨rfl, ⟨-, hFit, hType⟩, -, -⟩ := hBest
      have hEnd := hOwned.low e (by simp) hType
      have hApart := hOwned.not_usable hLive (show e ∈ pre ++ e :: post by simp) hType
      rw [List.append_cons] at h
      refine h.replace ?_ ?_
      · intro d hd _
        rw [List.mem_singleton.mp hd]
        omega
      · intro d hd hBase
        rcases List.mem_cons.mp hd with rfl | hd
        · exact ⟨e, List.mem_singleton_self e, hBase⟩
        · -- what is left of the entry begins inside it, and the frame is apart from it
          split at hd
          · next hSmall =>
              rw [List.mem_singleton.mp hd] at hBase
              have hAt := hApart base
              simp only [MemoryMap.rest] at hBase
              simp only [frameAt, extentOf, Extent.Has] at hAt
              omega
          · simp at hd

/-- Carving the frame itself. -/
theorem leads_take {r : Nat} (hOwned : Owned boot es live) (hAlloc : Allocated 4096 es r es')
    (hSome : r ≠ 0) (hFirst : ∀ e ∈ es.find? (·.base == r), 0 < e.length) : Leads r es' := by
  cases hAlloc with
  | noCandidate => exact absurd rfl hSome
  | tableFull => exact absurd rfl hSome
  | @taken pre post e hBest =>
      obtain ⟨rfl, ⟨-, hFit, hType⟩, -, -⟩ := hBest
      have hEnd := hOwned.low e (by simp) hType
      have hAddr : e.base % 2 ^ 32 = e.base := Nat.mod_eq_of_lt (by omega)
      rw [hAddr] at hFirst ⊢
      refine ⟨e.used 4096, ?_, rfl, rfl⟩
      have hPre : pre.find? (·.base == e.base) = none := by
        cases hFind : pre.find? (·.base == e.base) with
        | none => rfl
        | some d =>
            -- an entry before it at the same address would be empty
            have hd := List.mem_of_find?_eq_some hFind
            have hAt := List.find?_some hFind
            have hBase : d.base = e.base := beq_iff_eq.mp hAt
            have hPositive := hFirst d (by rw [List.find?_append, hFind, Option.some_or]; rfl)
            obtain ⟨-, -, hCross⟩ := List.pairwise_append.mp hOwned.apart
            have hApart := hCross d hd e (List.mem_cons_self ..) e.base
            simp only [extentOf, Extent.Has] at hApart
            omega
      rw [List.append_assoc, List.find?_append, hPre, Option.none_or]
      exact List.find?_cons_of_pos (beq_self_eq_true e.base)

/-- Freeing another frame. -/
theorem Leads.free {p : Nat} (h : Leads base es) (hne : base ≠ p) (hFreed : Freed p es es') :
    Leads base es' := by
  refine hFreed.closure (P := Leads base) (fun _ => h) ?_ ?_
  · rintro pre e post rfl hBase -
    rw [List.append_cons] at h ⊢
    refine h.replace ?_ ?_
    · intro d hd hAt
      rw [List.mem_singleton.mp hd] at hAt
      exact absurd (hAt.symm.trans hBase) hne
    · intro d hd hAt
      rw [List.mem_singleton.mp hd] at hAt
      exact ⟨e, List.mem_singleton_self e, hAt⟩
  · intro pre l r post hGlue hLeads
    have hSplit : pre ++ l :: r :: post = pre ++ [l, r] ++ post := by simp
    rw [hSplit] at hLeads
    rw [List.append_cons]
    refine hLeads.replace ?_ ?_
    · intro d hd _
      have hType : d.type = 1 := by
        rcases List.mem_pair.mp hd with rfl | rfl
        · exact hGlue.1
        · exact hGlue.2.1
      omega
    · intro d hd hAt
      rw [List.mem_singleton.mp hd] at hAt
      exact ⟨l, List.mem_cons_self .., hAt⟩

/-- **A frame that leads** is usable as a whole when it is freed. -/
theorem Leads.freed (h : Leads base es) (hOwned : Owned boot es live)
    (hLive : frameAt base ∈ live) (hFreed : Freed base es es') :
    ∀ x, (frameAt base).Has x → Usable es' x := by
  refine (hFreed.closure (P := fun fs =>
    Owned boot fs (live.filter (·.base ≠ base)) ∧
      ∀ x, (frameAt base).Has x → Usable fs x) ?_ ?_ ?_).2
  · intro hMissing
    obtain ⟨e, he, hExt, -⟩ := hOwned.entry _ hLive
    exact absurd (congrArg Extent.base hExt) (hMissing e he)
  · rintro pre e post rfl hBase hPre
    have hLength := h.split hBase hPre
    refine ⟨hOwned.release hLive hBase, fun x hx => ⟨e.usable, by simp, rfl, ?_⟩⟩
    simp only [extentOf, MemoryMap.usable, hBase, hLength]
    exact hx
  · rintro pre l r post hGlue ⟨hOwned, hAll⟩
    refine ⟨hOwned.join hGlue, fun x hx => ?_⟩
    have hLeft := hOwned.low l (by simp) hGlue.1
    have hRight := hOwned.low r (by simp) hGlue.2.1
    have hJoined := (has_join hGlue (by omega) (by omega) x).mpr
    obtain ⟨d, hd, hType, hHas⟩ := hAll x hx
    simp only [List.mem_append, List.mem_cons] at hd
    rcases hd with hd | rfl | rfl | hd
    · exact ⟨d, by simp [hd], hType, hHas⟩
    · exact ⟨d.join r, by simp, hGlue.1, hJoined (Or.inl hHas)⟩
    · exact ⟨l.join d, by simp, hGlue.1, hJoined (Or.inr hHas)⟩
    · exact ⟨d, by simp [hd], hType, hHas⟩

/-- The ranges that are held are live frames, each at the front of its address. -/
structure Ranges (boot es : List MemoryMap) (bases : List Nat) : Prop where
  live : ∃ live, Owned boot es live ∧ ∀ b ∈ bases, frameAt b ∈ live
  nodup : bases.Nodup
  leads : ∀ b ∈ bases, Leads b es

variable {bases bases' : List Nat}

theorem Ranges.sub (h : Ranges boot es bases) (hNodup : bases'.Nodup)
    (hSub : ∀ b ∈ bases', b ∈ bases) : Ranges boot es bases' where
  live := by
    obtain ⟨live, hOwned, hLive⟩ := h.live
    exact ⟨live, hOwned, fun b hb => hLive b (hSub b hb)⟩
  nodup := hNodup
  leads b hb := h.leads b (hSub b hb)

/-- `allocate` leaves the ranges that are held. -/
theorem Ranges.allocate {r : Nat} (h : Ranges boot es bases) (hAlloc : Allocated 4096 es r es') :
    Ranges boot es' bases := by
  obtain ⟨live, hOwned, hLive⟩ := h.live
  have hAfter := hOwned.allocate hAlloc (by decide)
  refine ⟨⟨_, hAfter, fun b hb => ?_⟩, h.nodup, fun b hb => ?_⟩
  · split
    · exact hLive b hb
    · exact List.mem_cons_of_mem _ (hLive b hb)
  · exact (h.leads b hb).allocate hOwned (hLive b hb) hAlloc

/-- **The range `allocate` returns** is held with the others. -/
theorem Ranges.take {r : Nat} (h : Ranges boot es bases) (hAlloc : Allocated 4096 es r es')
    (hSome : r ≠ 0) (hFirst : ∀ e ∈ es.find? (·.base == r), 0 < e.length) :
    Ranges boot es' (r :: bases) := by
  obtain ⟨live, hOwned, hLive⟩ := h.live
  have hAfter := hOwned.allocate hAlloc (by decide)
  rw [if_neg hSome] at hAfter
  have hNew : r ∉ bases := by
    intro hIn
    have hApart := (List.pairwise_cons.mp hAfter.liveApart).1 _ (hLive r hIn) r
    simp only [frameAt, Extent.Has] at hApart
    omega
  refine ⟨⟨_, hAfter, fun b hb => ?_⟩, List.nodup_cons.mpr ⟨hNew, h.nodup⟩, fun b hb => ?_⟩
  · rcases List.mem_cons.mp hb with rfl | hb
    · exact List.mem_cons_self ..
    · exact List.mem_cons_of_mem _ (hLive b hb)
  · rcases List.mem_cons.mp hb with rfl | hb
    · exact leads_take hOwned hAlloc hSome hFirst
    · exact (h.leads b hb).allocate hOwned (hLive b hb) hAlloc

/-- `free` leaves the other ranges. -/
theorem Ranges.free (h : Ranges boot es bases) (hBase : base ∈ bases)
    (hFreed : Freed base es es') : Ranges boot es' (bases.filter (· ≠ base)) := by
  obtain ⟨live, hOwned, hLive⟩ := h.live
  refine ⟨⟨_, hOwned.free (hLive base hBase) hFreed, fun b hb => ?_⟩, h.nodup.filter _,
    fun b hb => ?_⟩
  · obtain ⟨hIn, hne⟩ := List.mem_filter.mp hb
    exact List.mem_filter.mpr ⟨hLive b hIn, hne⟩
  · obtain ⟨hIn, hne⟩ := List.mem_filter.mp hb
    exact (h.leads b hIn).free (of_decide_eq_true hne) hFreed

/-! ## The tables -/

/-- The tables are where the code looks for them. -/
def Own : Way → Vm → Prop
  | .normal => Identity
  | .f10 => Tables

variable {way : Way} {vm vm' : Vm}

theorem Own.tables (h : Own way vm) : Tables vm := by
  cases way with
  | normal => exact Identity.tables h
  | f10 => exact h

theorem Own.update (h : Own way vm) (hMem : vm'.mem = vm.mem)
    (hDirectory : vm'.pageDirectory = vm.pageDirectory) : Own way vm' := by
  cases way with
  | normal => exact Identity.update h hMem hDirectory
  | f10 => exact Tables.congr h fun _ => sameTable_of_eq (by rw [hDirectory])

theorem Own.reach (h : Own way vm) {d : Nat} (hd : d < 1024) (hHas : HasTable vm d)
    {vm₁ : Vm} (hSame : ∀ d, SameTable vm vm₁ d) (hMem : vm₁.mem = vm.mem) {k : Nat}
    (hk : k < 1024) : way.ptr vm₁ (tableOf vm d + 4 * k) = some (tableOf vm d + 4 * k) := by
  cases way with
  | normal => exact Identity.reach h hd hHas hSame hMem hk
  | f10 => rfl

/-- What `map_page` leaves: the word of its page, and the map without a frame for the
table at most. -/
structure Maps (way : Way) (vm vm' : Vm) (page word : Nat) : Prop where
  own : Own way vm'
  words : ∀ q < 2 ^ 20, entryWord vm' q = if q = page then word else entryWord vm q
  pmm : vm'.pmm = vm.pmm ∨ vm'.pmm = (allocate 4096 vm.pmm).2

/-- **`map_page` with a table.** -/
theorem Own.map {physical v flags : Nat} (h : Own way vm) (hv : v < 2 ^ 32)
    (hFlags : flags < 2 ^ 32) (hReady : TableReady v vm)
    (hKeeps : way.Keeps vm (.mapPage physical v flags))
    (hMap : mapPage way.ptr physical v flags vm = some vm') :
    Maps way vm vm' (pageOf v) (frameOf physical ||| flags) := by
  have hDirectory := (page_div_lt hv).2
  have hAfter : Tables vm' → Own way vm' := by
    intro hTables
    cases way with
    | normal => exact mapPage_identity h hv hFlags hKeeps hMap
    | f10 => exact hTables
  by_cases hTable : HasTable vm (pageOf v / 1024)
  · obtain ⟨vm₁, hMap₁, hSame, hPmm, -, hWords⟩ :=
      Distinct.mapPage way.ptr h.tables.distinct physical hv
      hFlags hTable fun _ hSame hMem _ hk => h.reach hDirectory hTable hSame hMem hk
    cases hMap₁.symm.trans hMap
    exact ⟨hAfter (h.tables.congr hSame), hWords, Or.inl hPmm⟩
  · obtain ⟨hSome, hAligned, hFresh⟩ := hReady.resolve_left hTable
    have hRange := allocate_lt 4096 vm.pmm
    obtain ⟨vm₁, hMap₁, hNew, hWords⟩ :=
      Distinct.mapPage_adds way.ptr h.tables.distinct physical hv hFlags hTable
      rfl hSome hAligned hRange hFresh (by
        intro vm₁ hOther hMem k hk
        cases way with
        | normal =>
            have hOk : MapOk physical v flags vm := hKeeps
            rw [MapOk, if_neg hTable] at hOk
            exact (reach_new hAligned hRange hTable hFresh (hOk hSome).2.2 hOther hMem).2 k hk
        | f10 => rfl)
    cases hMap₁.symm.trans hMap
    exact ⟨hAfter (hNew.tables h.tables), hWords, Or.inr hNew.pmm⟩

/-- **`free_page`** clears the word of its page and frees the frame in it. -/
theorem Own.freePage {addr : Nat} (h : Own way vm) (hAddr : addr < 2 ^ 32) :
    ∃ vm', Paging.freePage way.ptr addr vm = some vm' ∧
      vm'.pmm = (if Present (entryWord vm (pageOf addr)) then
        free (frameOf (entryWord vm (pageOf addr))) vm.pmm else vm.pmm) ∧
      (∀ q < 2 ^ 20, q ≠ pageOf addr → entryWord vm' q = entryWord vm q) ∧
      (way.Keeps vm (.freePage addr) → Own way vm') := by
  obtain ⟨vm', hFree, hDirectory, hPmm, hWords⟩ := freePage_spec way.ptr h.tables hAddr
    fun hTable _ hSame hMem => h.reach (page_div_lt hAddr).2 hTable
      (fun d => sameTable_of_eq (by rw [hSame])) hMem (Nat.mod_lt _ (by decide))
  refine ⟨vm', hFree, hPmm, fun q hq hne => ?_, fun hKeeps => ?_⟩
  · rw [hWords q hq, if_neg fun hBoth => hne hBoth.1]
  · cases way with
    | normal => exact freePage_identity h hAddr hKeeps hFree
    | f10 => exact h.tables.congr fun _ => sameTable_of_eq (by rw [hDirectory])

/-! ## The invariant -/

/-- Every page that is held is mapped to the range that was handed out for it. -/
structure Ranged (way : Way) (boot : List MemoryMap) (vm : Vm) (held : List (Nat × Nat)) :
    Prop where
  own : Own way vm
  placed : Placed vm (held.map Prod.fst)
  ranges : Ranges boot vm.pmm.entries (held.map Prod.snd)
  words : ∀ h ∈ held, Present (entryWord vm h.1) ∧ frameOf (entryWord vm h.1) = h.2

variable {held : List (Nat × Nat)}

theorem Ranged.lt (h : Ranged way boot vm held) {page : Nat} (hPage : page ∈ held.map Prod.fst) :
    page < 2 ^ 20 :=
  h.placed.lt (List.mem_append_left _ hPage)

/-- A page that no caller gets is not held. -/
theorem Ranged.tail {page : Nat × Nat} (h : Ranged way boot vm (page :: held)) :
    Ranged way boot vm held where
  own := h.own
  placed := h.placed.drop (List.sublist_cons_self _ _)
  ranges := h.ranges.sub (List.nodup_cons.mp h.ranges.nodup).2 fun _ hb =>
    List.mem_cons_of_mem _ hb
  words d hd := h.words d (List.mem_cons_of_mem _ hd)

/-- The call fails. -/
theorem Ranged.full (h : Ranged way boot vm held) :
    Ranged way boot { vm with pmm := (allocate 4096 vm.pmm).2 } held where
  own := h.own.update rfl rfl
  placed := h.placed.same ⟨rfl, rfl, rfl⟩
  ranges := h.ranges.allocate (allocate_cases 4096 vm.pmm)
  words := h.words

/-- The word of a page that is mapped to an aligned range. -/
theorem word_range {r flags : Nat} (hAligned : r % 4096 = 0) (hRange : r < 2 ^ 32)
    (hPresent : Present flags) (hBits : r ||| frameOf flags = r) :
    Present (frameOf r ||| flags) ∧ frameOf (frameOf r ||| flags) = r := by
  have hFrame := frameOf_aligned hAligned hRange
  refine ⟨(or_mod_two _ _).mpr (Or.inr hPresent), ?_⟩
  rw [frameOf_lor, hFrame, hFrame, hBits]

/-- **A new page** is held with its range. -/
theorem Ranged.take {flag : Nat} (h : Ranged way boot vm held) (hFlag : flag < 2 ^ 32)
    (hSome : (allocate 4096 vm.pmm).1 ≠ 0) (hWhole : Whole flag vm)
    (hKeeps : way.Keeps vm (.allocatePage flag))
    (hMap : mapPage way.ptr (allocate 4096 vm.pmm).1
      (takeVirtual { vm with pmm := (allocate 4096 vm.pmm).2 }).1 (defaultFlags flag)
      (takeVirtual { vm with pmm := (allocate 4096 vm.pmm).2 }).2 = some vm') :
    Ranged way boot vm' ((pageOf (takeVirtual { vm with pmm := (allocate 4096 vm.pmm).2 }).1,
      (allocate 4096 vm.pmm).1) :: held) := by
  have hFull : Placed { vm with pmm := (allocate 4096 vm.pmm).2 } (held.map Prod.fst) :=
    h.placed.same ⟨rfl, rfl, rfl⟩
  have hPlaced := hFull.take hWhole.room
  obtain ⟨hPmm, hMem, hDirectory, -⟩ :=
    takeVirtual_frame { vm with pmm := (allocate 4096 vm.pmm).2 }
  have hTaken := h.own.update hMem hDirectory
  have hMapKeeps : way.Keeps (takeVirtual { vm with pmm := (allocate 4096 vm.pmm).2 }).2
      (.mapPage (allocate 4096 vm.pmm).1
        (takeVirtual { vm with pmm := (allocate 4096 vm.pmm).2 }).1 (defaultFlags flag)) := by
    cases way with
    | normal => exact hKeeps hSome
    | f10 => trivial
  have hReady := hWhole.table
  have hWords : ∀ p, entryWord (takeVirtual { vm with pmm := (allocate 4096 vm.pmm).2 }).2 p =
      entryWord vm p := fun p =>
    entryWord_congr (sameTable_of_eq (by rw [hDirectory])) fun _ _ _ _ => by rw [hMem]
  have hRanges : Ranges boot
      (takeVirtual { vm with pmm := (allocate 4096 vm.pmm).2 }).2.pmm.entries
      ((allocate 4096 vm.pmm).1 :: held.map Prod.snd) := by
    rw [hPmm]
    exact h.ranges.take (allocate_cases 4096 vm.pmm) hSome hWhole.first
  generalize takeVirtual { vm with pmm := (allocate 4096 vm.pmm).2 } = t at *
  obtain ⟨v, vm₁⟩ := t
  have hPage : pageOf v < 2 ^ 20 := hPlaced.lt (List.mem_cons_self ..)
  have hv : v < 2 ^ 32 := by
    unfold pageOf at hPage
    omega
  have hNew : pageOf v ∉ held.map Prod.fst := by
    have hNodup := (List.nodup_append.mp hPlaced.nodup).1
    exact (List.nodup_cons.mp hNodup).1
  have hMaps := hTaken.map hv (defaultFlags_lt (by decide) hFlag) hReady hMapKeeps hMap
  refine ⟨hMaps.own, hPlaced.same (mapPage_same hMap), ?_, fun d hd => ?_⟩
  · rcases hMaps.pmm with hEq | hEq
    · rw [hEq]
      exact hRanges
    · rw [hEq]
      exact hRanges.allocate (allocate_cases 4096 vm₁.pmm)
  · rcases List.mem_cons.mp hd with rfl | hd
    · rw [hMaps.words _ hPage, if_pos rfl]
      exact word_range hWhole.aligned (allocate_lt 4096 vm.pmm) hWhole.present hWhole.bits
    · have hIn : d.1 ∈ held.map Prod.fst := List.mem_map_of_mem hd
      have hne : d.1 ≠ pageOf v := fun hEq => hNew (hEq ▸ hIn)
      rw [hMaps.words _ (h.lt hIn), if_neg hne, hWords]
      exact h.words d hd

/-- **A page that is freed** is held no longer. -/
theorem Ranged.free {addr : Nat} (h : Ranged way boot vm held) (hAddr : addr < 2 ^ 32)
    (hHeld : pageOf addr ∈ held.map Prod.fst) (hKeeps : way.Keeps vm (.freePage addr))
    (hFree : Paging.freePage way.ptr addr vm = some vm') :
    Ranged way boot vm' (held.filter (·.1 ≠ pageOf addr)) := by
  obtain ⟨vm₁, hFree₁, hPmm, hWords, hOwn⟩ := h.own.freePage hAddr
  cases hFree₁.symm.trans hFree
  obtain ⟨d, hd, hPage⟩ := List.mem_map.mp hHeld
  obtain ⟨hPresent, hFrame⟩ := h.words d hd
  rw [hPage] at hPresent hFrame
  rw [if_pos hPresent, hFrame] at hPmm
  refine ⟨hOwn hKeeps, ?_, ?_, fun c hc => ?_⟩
  · -- a page that is held is not on the stack, and `next_virtual` has passed it
    have hApart := (List.nodup_append.mp h.placed.nodup).2.2
    have hBelow := h.placed.below _ (List.mem_append_left _ hHeld)
    have hPushed := h.placed.push (fun hStack => hApart _ hHeld _ hStack rfl)
      (show addr < vm.nextVirtual by unfold pageOf at hBelow; omega)
    rw [List.filter_map] at hPushed
    exact hPushed.same (freePage_same hFree)
  · rw [hPmm]
    have hFreed := h.ranges.free (List.mem_map_of_mem hd) (free_cases d.2 vm.pmm)
    refine hFreed.sub (h.ranges.nodup.sublist (List.filter_sublist.map _)) fun b hb => ?_
    obtain ⟨c, hc, rfl⟩ := List.mem_map.mp hb
    obtain ⟨hc, hne⟩ := List.mem_filter.mp hc
    refine List.mem_filter.mpr ⟨List.mem_map_of_mem hc, decide_eq_true fun hEq => ?_⟩
    rw [List.inj_on_of_nodup_map h.ranges.nodup hc hd hEq] at hne
    exact of_decide_eq_true hne hPage
  · obtain ⟨hc, hne⟩ := List.mem_filter.mp hc
    rw [hWords _ (h.lt (List.mem_map_of_mem hc)) (of_decide_eq_true hne)]
    exact h.words c hc

/-- **One call.** -/
theorem step_ranged (layout : Layout) (s : State) (e : Event) (s' : State)
    (h : Ranged way boot s.vm s.held) (hOk : Sound way layout s e)
    (hStep : step way.ptr s e = some s') : Ranged way boot s'.vm s'.held := by
  obtain ⟨hOk, hKeeps, -⟩ := hOk
  cases e with
  | allocatePage flag =>
      simp only [step] at hStep
      split at hStep
      · next hFlag =>
          obtain ⟨⟨v, vm⟩, hCall, rfl⟩ := Option.map_eq_some_iff.mp hStep
          by_cases hFull : (allocate 4096 s.vm.pmm).1 = 0
          · unfold allocatePage at hCall
            rw [if_pos hFull] at hCall
            cases hCall
            exact h.full
          · rw [allocatePage_some hFull] at hCall
            obtain ⟨vm₁, hMap, hEq⟩ := Option.map_eq_some_iff.mp hCall
            cases hEq
            have hTaken := h.take hFlag hFull (hOk hFull) hKeeps hMap
            simp only
            split
            · exact hTaken.tail
            · exact hTaken
      · simp at hStep
  | freePage addr =>
      simp only [step] at hStep
      split at hStep
      · next hHeld =>
          obtain ⟨vm, hFree, rfl⟩ := Option.map_eq_some_iff.mp hStep
          exact h.free hHeld.1 hHeld.2 hKeeps hFree
      · simp at hStep

/-- The first call is made in a state in which nothing is held. -/
theorem start_ranged (way : Way) (layout : Layout) {pmm : Table} (mem : Mem)
    (freeVirtual : Nat → Nat) (hApart : PairwiseApart extentOf pmm.entries)
    (hLow : ∀ e ∈ pmm.entries, e.base + e.length ≤ 2 ^ 32) :
    Ranged way pmm.entries (way.start layout pmm mem freeVirtual) [] := by
  have hOwned := Owned.boot hApart fun e he _ => hLow e he
  cases way with
  | normal =>
      exact
        { own := (boot_invariant layout pmm mem freeVirtual).1
          placed := boot_placed layout pmm mem freeVirtual
          ranges := ⟨⟨[], hOwned, by simp⟩, List.nodup_nil, by simp⟩
          words := by simp }
  | f10 =>
      have hNone : ∀ d, ¬HasTable (unprepared pmm mem freeVirtual) d := fun d => by
        simp [HasTable, unprepared, Present]
      exact
        { own := ⟨fun d _ _ _ hHas => absurd hHas (hNone d),
            fun d _ hHas => absurd hHas (hNone d)⟩
          placed :=
            { nodup := List.nodup_nil
              below := by simp [stack, Way.start, unprepared]
              aligned := rfl
              range := show 0 < 2 ^ 32 by decide }
          ranges := ⟨⟨[], hOwned, by simp⟩, List.nodup_nil, by simp⟩
          words := by simp }

/-! ## The result -/

/-- The two views of a page agree. -/
theorem Ranged.exact {page base : Nat} (h : Ranged way boot vm held)
    (hIn : (page, base) ∈ held) : Exact way.ptr boot vm page base := by
  obtain ⟨live, hOwned, hLive⟩ := h.ranges.live
  obtain ⟨hPresent, hFrame⟩ := h.words _ hIn
  have hBase : base ∈ held.map Prod.snd := List.mem_map_of_mem hIn
  refine ⟨?_, hOwned.usable _ (hLive base hBase), ?_⟩
  · rintro v hv rfl
    have hDirectory := (page_div_lt hv).2
    have hTable := entryWord_present hPresent
    have hPte : getPte v vm = tableOf vm (pageOf v / 1024) + 4 * (pageOf v % 1024) := by
      rw [getPte_eq, if_pos hTable]
    have hNonzero := h.own.tables.nonzero _ hDirectory hTable
    rw [getMap_eq fun _ => hPte ▸ h.own.reach hDirectory hTable (SameTable.refl vm) rfl
      (Nat.mod_lt _ (by decide)), if_pos ⟨by omega, hPresent⟩, hFrame]
  · rintro v hv rfl
    obtain ⟨vm', hFree, hPmm, -, -⟩ := h.own.freePage hv
    rw [if_pos hPresent, hFrame] at hPmm
    refine ⟨vm', hFree, ?_⟩
    rw [hPmm]
    exact (h.ranges.leads base hBase).freed hOwned (hLive base hBase) (free_cases base vm.pmm)

/-- **The frame of a held page is the range** that was handed out for it, in every state
of a run of sound calls, on both ways through `kernel()`. -/
theorem ranges_exact (way : Way) {layout : Layout} {pmm : Table} {mem : Mem}
    {freeVirtual : Nat → Nat} {events : List Event} {s : State}
    (hApart : PairwiseApart extentOf pmm.entries)
    (hLow : ∀ e ∈ pmm.entries, e.base + e.length ≤ 2 ^ 32)
    (hRun : exec (step way.ptr) ⟨way.start layout pmm mem freeVirtual, []⟩ events = some s)
    (hOk : Meets (step way.ptr) (Sound way layout) ⟨way.start layout pmm mem freeVirtual, []⟩
      events) :
    ∀ h ∈ s.held, Exact way.ptr pmm.entries s.vm h.1 h.2 := by
  have hRanged := hOk.invariant (I := fun s => Ranged way pmm.entries s.vm s.held)
    (step_ranged layout) (start_ranged way layout mem freeVirtual hApart hLow) hRun
  exact fun h hIn => hRanged.exact hIn

/-- On a PC, a page is freed and its range handed out again. -/
theorem ranges_exact_pcMap :
    ∃ s, exec (step pageWalk)
        ⟨Paging.boot image PmmOwnership.pcMap (fun _ => 0) (fun _ => 0), []⟩
        [.allocatePage 0, .allocatePage 7, .freePage 0x26ABC, .allocatePage 3] = some s ∧
      s.held = [(0x26, 0x100000), (0x27, 0x101000)] ∧
      ∀ h ∈ s.held, Exact pageWalk PmmOwnership.pcMap.entries s.vm h.1 h.2 := by
  have hHeld : (exec (step pageWalk)
      ⟨Paging.boot image PmmOwnership.pcMap (fun _ => 0) (fun _ => 0), []⟩
      [.allocatePage 0, .allocatePage 7, .freePage 0x26ABC, .allocatePage 3]).map State.held =
        some [(0x26, 0x100000), (0x27, 0x101000)] := by
    rw [boot_eq]
    decide +kernel
  obtain ⟨s, hRun, hs⟩ := Option.map_eq_some_iff.mp hHeld
  refine ⟨s, hRun, hs, ranges_exact .normal (by decide) (by decide) hRun ?_⟩
  show Meets (step pageWalk) (Sound .normal image)
    ⟨Paging.boot image PmmOwnership.pcMap (fun _ => 0) (fun _ => 0), []⟩ _
  rw [boot_eq]
  decide +kernel

/-- The firmware offers memory from the middle of a page on. -/
def halfwayMap : Table := Table.ofList
  [ { base := 0x100800, length := 0x2000, type := 1, acpi := 1 } ]

/-- **The range is not the frame.**  The first page gets the range at `0x100800` and is
mapped to `0x100000`, which nobody said is usable; and when it is freed, the range is not. -/
theorem range_cut_off :
    PairwiseApart extentOf halfwayMap.entries ∧
      (∀ e ∈ halfwayMap.entries, e.base + e.length ≤ 2 ^ 32) ∧
      ∃ s vm', exec (step pageWalk) ⟨Paging.boot image halfwayMap (fun _ => 0) (fun _ => 0), []⟩
          [.allocatePage 0] = some s ∧
        s.held = [(0x26, 0x100800)] ∧ getMap pageWalk 0x26000 s.vm = some 0x100000 ∧
        ¬UsableAt halfwayMap.entries 0x100000 ∧
        freePage pageWalk 0x26000 s.vm = some vm' ∧ ¬Usable vm'.pmm.entries 0x100800 ∧
        ¬Exact pageWalk halfwayMap.entries s.vm 0x26 0x100800 := by
  have hRun : ((exec (step pageWalk) ⟨Paging.boot image halfwayMap (fun _ => 0) (fun _ => 0), []⟩
      [.allocatePage 0]).bind fun s => (freePage pageWalk 0x26000 s.vm).map fun vm' =>
        (s.held, getMap pageWalk 0x26000 s.vm, decide (Usable vm'.pmm.entries 0x100800))) =
      some ([(0x26, 0x100800)], some 0x100000, false) := by
    rw [boot_eq]
    decide +kernel
  obtain ⟨s, hCall, hRest⟩ := Option.bind_eq_some_iff.mp hRun
  obtain ⟨vm', hFree, hEq⟩ := Option.map_eq_some_iff.mp hRest
  simp only [Prod.mk.injEq] at hEq
  obtain ⟨hHeld, hMap, hFreed⟩ := hEq
  refine ⟨by decide, by decide, s, vm', hCall, hHeld, hMap, ?_, hFree,
    of_decide_eq_false hFreed, fun hExact => ?_⟩
  · rintro ⟨b, hb, -, -, hHas⟩
    have hEntry : halfwayMap.entries = [⟨0x100800, 0x2000, 1, 1⟩] := by decide
    rw [hEntry] at hb
    rw [List.mem_singleton.mp hb] at hHas
    simp only [extentOf, Extent.Has] at hHas
    omega
  · have hMapped := hExact.mapped 0x26000 (by decide) (by decide)
    rw [hMap] at hMapped
    exact absurd hMapped (by decide)

end MiniKernel.Ports.PageRanges

import MiniKernel.Ports.ElfDraws
import MiniKernel.Verified.EventLog

/-!
# Where `load_segment` writes

The pages `load_segment` maps come from rounded sums of the header's fields, computed
in 32 bits; the bytes it copies and clears come from the fields themselves.  Here the
function is written with a log of both, which also shows what a call has done that
ends in a page fault.  The bytes stay in the mapped pages, and there are none when a
page could not be mapped, exactly if the header `Fits` and every page got its table
(`Confined`): nothing in the code compares `p_filesz` with `p_memsz`, looks for a
carry, or learns that `map_page` found no frame for a table.

Nor does it compare `p_vaddr` with anything.  Headers over the pages the kernel works in
are left out (`OffKernel`): once such a page is mapped the loop runs on other variables.
-/

namespace MiniKernel.Ports.ElfWrites

open MiniKernel.Verified.ByteMemory
open MiniKernel.Verified.PageWords
open MiniKernel.Verified.VirtualMemory
open MiniKernel.Verified.EventLog
open MiniKernel.Ports.Pmm
open MiniKernel.Ports.Paging
open MiniKernel.Ports.PagingTables
open MiniKernel.Ports.PagingSparing
open MiniKernel.Ports.PagingKept
open MiniKernel.Ports.PagingIdentity
open MiniKernel.Ports.Elf
open MiniKernel.Ports.ElfLoading (Grant grantsIn)
open MiniKernel.Ports.ElfDraws

/-! ## The code with its accesses -/

/-- What `load_segment` does to virtual memory: a page gets its table word, a byte is
written. -/
inductive Access where
  | maps (page : Nat)
  | writes (address : Nat)
  deriving Repr, DecidableEq

section Logs

variable (ptr : Vm → Nat → Option Nat)

/-- `map_page`. -/
def mapPageLogged (physical virtual flags : Nat) (vm : Vm) : Logged Access Vm :=
  (silent (ensureTable ptr (virtual >>> 22) flags vm)).andThen fun r =>
    if r.1 then event (.maps virtual) (writeEntry ptr physical virtual flags r.2) else done r.2

/-- The mapping loop of `load_segment`. -/
def mapPagesLogged : List Nat → Vm → Logged Access (Bool × Vm)
  | [], vm => done (true, vm)
  | v :: vs, vm =>
      let r := allocate 4096 vm.pmm
      if r.1 = 0 then done (false, { vm with pmm := r.2 })
      else
        (mapPageLogged ptr r.1 v (pagePresent ||| pageUser ||| pageWrite)
          { vm with pmm := r.2 }).andThen fun vm => mapPagesLogged vs vm

/-- A loop that writes `n` bytes. -/
def putLogged (tr : Mem → Nat → Option Nat) (dest n : Nat) (byte : Mem → Nat → Option UInt8)
    (m : Mem) : Logged Access Mem :=
  loop (fun m i => event (.writes ((dest + i) % 2 ^ 32))
    ((byte m i).bind (putByte tr m (dest + i)))) (List.range n) m

def memcpyLogged (dest src n : Nat) (vm : Vm) : Logged Access Vm :=
  (putLogged (through ptr vm) dest n (fun m i => fetchByte (through ptr vm) m (src + i))
    vm.mem).andThen fun m => done { vm with mem := m }

def memsetLogged (dest value size : Nat) (vm : Vm) : Logged Access Vm :=
  (putLogged (through ptr vm) dest size (fun _ _ => some (UInt8.ofNat value)) vm.mem).andThen
    fun m => done { vm with mem := m }

/-- The rest of `load_segment`, once the pages are mapped. -/
def copySegmentLogged (ph file : Nat) (vm : Vm) : Logged Access Vm :=
  (silent (readMember ptr ph pOffset vm)).andThen fun offset =>
  (silent (readMember ptr ph pVaddr vm)).andThen fun vaddr =>
  (silent (readMember ptr ph pFilesz vm)).andThen fun filesz =>
  (memcpyLogged ptr vaddr (file + offset) filesz vm).andThen fun vm =>
  (silent (readMember ptr ph pMemsz vm)).andThen fun memsz =>
  (silent (readMember ptr ph pFilesz vm)).andThen fun filesz =>
    if filesz < memsz then
      (silent (readMember ptr ph pVaddr vm)).andThen fun vaddr =>
        memsetLogged ptr (vaddr + filesz) 0 (memsz - filesz) vm
    else done vm

/-- `load_segment`. -/
def loadSegmentLogged (ph file : Nat) (vm : Vm) : Logged Access Vm :=
  (silent (readMember ptr ph pVaddr vm)).andThen fun vaddr =>
  (silent (readMember ptr ph pMemsz vm)).andThen fun memsz =>
  (mapPagesLogged ptr (segmentPages vaddr memsz) vm).andThen fun r =>
    if r.1 then copySegmentLogged ptr ph file r.2 else done r.2

theorem result_mapPageLogged (physical virtual flags : Nat) (vm : Vm) :
    (mapPageLogged ptr physical virtual flags vm).result =
      mapPage ptr physical virtual flags vm := by
  rw [mapPageLogged, result_andThen, result_silent, mapPage]
  congr 1
  funext r
  split <;> rfl

theorem result_mapPagesLogged (vs : List Nat) (vm : Vm) :
    (mapPagesLogged ptr vs vm).result = mapPages ptr vs vm := by
  induction vs generalizing vm with
  | nil => rfl
  | cons v vs ih =>
      rw [mapPagesLogged, mapPages]
      split
      · rfl
      · rw [result_andThen, result_mapPageLogged]
        congr 1
        funext vm'
        exact ih vm'

theorem result_putLogged (tr : Mem → Nat → Option Nat) (dest n : Nat)
    (byte : Mem → Nat → Option UInt8) (m : Mem) :
    (putLogged tr dest n byte m).result = put tr dest n byte m := by
  rw [putLogged, result_loop]
  rfl

theorem result_memcpyLogged (dest src n : Nat) (vm : Vm) :
    (memcpyLogged ptr dest src n vm).result = memcpy ptr dest src n vm := by
  rw [memcpyLogged, result_andThen, result_putLogged, memcpy, copy, Option.map_eq_bind]
  rfl

theorem result_memsetLogged (dest value size : Nat) (vm : Vm) :
    (memsetLogged ptr dest value size vm).result = memset ptr dest value size vm := by
  rw [memsetLogged, result_andThen, result_putLogged, memset, fill, Option.map_eq_bind]
  rfl

theorem result_copySegmentLogged (ph file : Nat) (vm : Vm) :
    (copySegmentLogged ptr ph file vm).result = copySegment ptr ph file vm := by
  simp only [copySegmentLogged, copySegment, result_andThen, result_silent, result_memcpyLogged,
    Option.bind_eq_bind]
  congr! 14
  split
  · rw [result_andThen, result_silent]
    congr! 2
    exact result_memsetLogged ..
  · rfl

/-- **The log is a log of `load_segment`.** -/
theorem result_loadSegmentLogged (ph file : Nat) (vm : Vm) :
    (loadSegmentLogged ptr ph file vm).result = loadSegment ptr ph file vm := by
  simp only [loadSegmentLogged, loadSegment, result_andThen, result_silent,
    result_mapPagesLogged, Option.bind_eq_bind]
  congr! 6
  split
  · exact result_copySegmentLogged ..
  · rfl

end Logs

/-! ## The condition -/

/-- The pages at `vs` whose table is refused; `none` when a frame is refused and the
mapping loop returns.  `present` tells which directory entries have a table. -/
def untabled : List Nat → (Nat → Bool) → Table → Option (List Nat)
  | [], _, _ => some []
  | v :: vs, present, t =>
      let r := allocate 4096 t
      if r.1 = 0 then none
      else if present (pageOf v / 1024) then untabled vs present r.2
      else
        let r' := allocate 4096 r.2
        if r'.1 = 0 then (untabled vs present r'.2).map fun ws => v :: ws
        else untabled vs (fun d => d == pageOf v / 1024 || present d) r'.2

/-- The bytes of the segment do not wrap and end within its last page. -/
def Fits (s : Segment) : Prop :=
  s.vaddr + s.memsz + 0xFFF < 2 ^ 32 ∧
    s.vaddr % 4096 + s.filesz ≤ 4096 * ((s.vaddr % 4096 + s.memsz + 0xFFF) / 4096)

instance (s : Segment) : Decidable (Fits s) := inferInstanceAs (Decidable (_ ∧ _))

/-- The segment has no bytes, or a page of it gets no frame, or all its pages get a frame
and a table and it fits them. -/
def Confined (s : Segment) (vm : Vm) : Prop :=
  s.filesz = 0 ∧ s.memsz = 0 ∨ untabled s.pages (tables vm) vm.pmm = none ∨
    untabled s.pages (tables vm) vm.pmm = some [] ∧ Fits s

instance (s : Segment) (vm : Vm) : Decidable (Confined s vm) :=
  inferInstanceAs (Decidable (_ ∨ _))

/-- The pages the kernel works in are none of the segment's, `allocate` has none of their
frames to offer for it, and no table word it needs is in the kernel's own memory. -/
structure OffKernel (layout : Layout) (ptr : Vm → Nat → Option Nat) (s : Segment) (vm : Vm) :
    Prop where
  inPlace : InPlace layout vm
  pages : ∀ v ∈ s.pages, pageOf v ∉ workPages layout vm
  frames : ∀ f ∈ (grantsIn vm s.pages).flatMap Grant.frames, f ≠ 0 →
    ¬Holds (workPages layout vm) vm f
  edits : (mapPages ptr s.pages vm).isSome → (mapPages (sparing layout ptr) s.pages vm).isSome

/-- Every byte written is in a page that was mapped, and none is written unless all the
pages were. -/
def Contained (pages : List Nat) (log : List Access) : Prop :=
  (∀ a, .writes a ∈ log → ∃ v, .maps v ∈ log ∧ pageOf a = pageOf v) ∧
    ((∃ v ∈ pages, .maps v ∉ log) → ∀ a, .writes a ∉ log)

/-- The header at `ph` shows `s`. -/
def Shows (ptr : Vm → Nat → Option Nat) (ph : Nat) (s : Segment) (vm : Vm) : Prop :=
  readMember ptr ph pOffset vm = some s.offset ∧ readMember ptr ph pVaddr vm = some s.vaddr ∧
    readMember ptr ph pFilesz vm = some s.filesz ∧ readMember ptr ph pMemsz vm = some s.memsz

/-- `s` is the header of the call: it is there each time the code looks. -/
structure Header (ptr : Vm → Nat → Option Nat) (ph file : Nat) (s : Segment) (vm : Vm) :
    Prop where
  atStart : Shows ptr ph s vm
  mapped : ∀ vm₁, mapPages ptr s.pages vm = some (true, vm₁) → Shows ptr ph s vm₁
  copied : ∀ vm₁ vm₂, mapPages ptr s.pages vm = some (true, vm₁) →
    memcpy ptr s.vaddr (file + s.offset) s.filesz vm₁ = some vm₂ → Shows ptr ph s vm₂

instance (ptr : Vm → Nat → Option Nat) (ph : Nat) (s : Segment) (vm : Vm) :
    Decidable (Shows ptr ph s vm) := inferInstanceAs (Decidable (_ ∧ _))

/-! ## The pages -/

variable {ptr : Vm → Nat → Option Nat} {s : Segment} {vm vm' : Vm}

theorem fetch_lt {tr : Mem → Nat → Option Nat} {m : Mem} {n a w : Nat}
    (h : fetch tr m a n = some w) : w < 256 ^ n := by
  induction n generalizing a w with
  | zero =>
      cases h
      exact Nat.one_pos
  | succ n ih =>
      obtain ⟨b, -, hRest⟩ := Option.bind_eq_some_iff.mp h
      obtain ⟨v, hTail, rfl⟩ := Option.map_eq_some_iff.mp hRest
      have hHead := b.toNat_lt
      have hTail := ih hTail
      rw [pow_succ]
      omega

/-- A field of a program header has 32 bits. -/
theorem Shows.lt {ph : Nat} (h : Shows ptr ph s vm) :
    s.vaddr < 2 ^ 32 ∧ s.filesz < 2 ^ 32 ∧ s.memsz < 2 ^ 32 := by
  obtain ⟨-, hVaddr, hFilesz, hMemsz⟩ := h
  exact ⟨fetch_lt hVaddr, fetch_lt hFilesz, fetch_lt hMemsz⟩

theorem segmentStart_eq {vaddr : Nat} (h : vaddr < 2 ^ 32) :
    segmentStart vaddr = 4096 * (vaddr / 4096) := by
  rw [segmentStart, and_mask, frameOf]
  omega

theorem segmentEnd_eq (vaddr memsz : Nat) :
    segmentEnd vaddr memsz = 4096 * ((vaddr + memsz + 0xFFF) % 2 ^ 32 / 4096) := by
  rw [segmentEnd, and_mask, frameOf]
  omega

theorem mem_segmentPages {vaddr memsz v : Nat} (h : vaddr < 2 ^ 32) :
    v ∈ segmentPages vaddr memsz ↔
      ∃ k, vaddr / 4096 + k < (vaddr + memsz + 0xFFF) % 2 ^ 32 / 4096 ∧
        v = 4096 * (vaddr / 4096 + k) := by
  simp only [segmentPages, segmentStart_eq h, segmentEnd_eq, List.mem_map, List.mem_range]
  refine exists_congr fun k => ?_
  omega

theorem segmentPages_nodup (vaddr memsz : Nat) : (segmentPages vaddr memsz).Nodup := by
  refine List.Nodup.map (fun a b hab => ?_) List.nodup_range
  omega

/-- The mapping loop leaves the kernel's own memory alone when it succeeds without it. -/
theorem mapPages_sparing {layout : Layout} {vs : List Nat} {r : Bool × Vm}
    (h : mapPages (sparing layout ptr) vs vm = some r) :
    mapPages ptr vs vm = some r ∧ Leaves layout vm r.2 := by
  induction vs generalizing vm with
  | nil =>
      cases h
      exact ⟨rfl, Leaves.of_eq rfl rfl⟩
  | cons v vs ih =>
      unfold mapPages at h ⊢
      by_cases hFull : (allocate 4096 vm.pmm).1 = 0
      · simp only [if_pos hFull] at h ⊢
        cases h
        exact ⟨rfl, Leaves.of_eq rfl rfl⟩
      · simp only [if_neg hFull] at h ⊢
        obtain ⟨vm₁, hMap, hRest⟩ := Option.bind_eq_some_iff.mp h
        obtain ⟨hSame, hLeaves⟩ := mapPage_sparing hMap
        obtain ⟨hLater, hLeaves'⟩ := ih hRest
        rw [hSame, Option.bind_some]
        exact ⟨hLater, (hLeaves.trans hLeaves').after rfl rfl⟩

theorem OffKernel.leaves {layout : Layout} (h : OffKernel layout ptr s vm) {r : Bool × Vm}
    (hMap : mapPages ptr s.pages vm = some r) : Leaves layout vm r.2 := by
  obtain ⟨r', hSparing⟩ := Option.isSome_iff_exists.mp (h.edits (Option.isSome_of_mem hMap))
  obtain ⟨hSame, hLeaves⟩ := mapPages_sparing hSparing
  obtain rfl := Option.some.inj (hMap.symm.trans hSame)
  exact hLeaves

/-- A header that fits: its bytes are in its pages. -/
theorem Fits.covered (h : Fits s) {k : Nat} (hk : k < max s.filesz s.memsz) :
    ∃ v ∈ s.pages, pageOf ((s.vaddr + k) % 2 ^ 32) = pageOf v := by
  obtain ⟨hNoWrap, hEnd⟩ := h
  refine ⟨4096 * (s.vaddr / 4096 + (s.vaddr % 4096 + k) / 4096),
    (mem_segmentPages (by omega)).mpr ⟨_, ?_, rfl⟩, ?_⟩
  · rw [Nat.mod_eq_of_lt hNoWrap]
    omega
  · have hLow : s.vaddr + k < 2 ^ 32 := by omega
    rw [Nat.mod_eq_of_lt hLow]
    unfold pageOf
    omega

/-- One that does not: it has a byte outside. -/
theorem exists_stray (hVaddr : s.vaddr < 2 ^ 32) (hMemsz : s.memsz < 2 ^ 32)
    (hBytes : 0 < max s.filesz s.memsz) (h : ¬Fits s) :
    ∃ k < max s.filesz s.memsz, ∀ v ∈ s.pages,
      pageOf ((s.vaddr + k) % 2 ^ 32) ≠ pageOf v := by
  have hPages := @mem_segmentPages s.vaddr s.memsz
  unfold pageOf
  by_cases hWrap : s.vaddr + s.memsz + 0xFFF < 2 ^ 32
  · -- the first byte behind the last page
    have hEnd : 4096 * ((s.vaddr % 4096 + s.memsz + 0xFFF) / 4096) <
        s.vaddr % 4096 + s.filesz := by
      by_contra hNot
      exact h ⟨hWrap, by omega⟩
    refine ⟨4096 * ((s.vaddr % 4096 + s.memsz + 0xFFF) / 4096) - s.vaddr % 4096, by omega,
      fun v hv => ?_⟩
    obtain ⟨j, hj, rfl⟩ := (hPages hVaddr).mp hv
    rw [Nat.mod_eq_of_lt hWrap] at hj
    omega
  · -- there is at most one page, and only if nearly all memory is asked for
    by_cases hNone : s.memsz + 0xFFF < 2 ^ 32
    · refine ⟨0, hBytes, fun v hv => ?_⟩
      obtain ⟨j, hj, rfl⟩ := (hPages hVaddr).mp hv
      omega
    · refine ⟨4096, by omega, fun v hv => ?_⟩
      obtain ⟨j, hj, rfl⟩ := (hPages hVaddr).mp hv
      omega

/-! ## The log -/

/-- The mapping loop writes no byte. -/
theorem mem_mapPagesLogged {vs : List Nat} {e : Access}
    (h : e ∈ (mapPagesLogged ptr vs vm).log) : ∃ v ∈ vs, e = .maps v := by
  induction vs generalizing vm with
  | nil => exact absurd h List.not_mem_nil
  | cons v vs ih =>
      rw [mapPagesLogged] at h
      split at h
      · exact absurd h List.not_mem_nil
      · rcases mem_andThen.mp h with hHere | ⟨vm₁, -, hLater⟩
        · obtain ⟨r, -, hEntry⟩ := mem_silent.mp hHere
          split at hEntry
          · cases hWrite : writeEntry ptr (allocate 4096 vm.pmm).1 v
              (pagePresent ||| pageUser ||| pageWrite) r.2 with
            | none =>
                rw [hWrite] at hEntry
                exact absurd hEntry List.not_mem_nil
            | some vm₂ =>
                rw [hWrite] at hEntry
                exact ⟨v, List.mem_cons_self, List.mem_singleton.mp hEntry⟩
          · exact absurd hEntry List.not_mem_nil
        · obtain ⟨w, hw, rfl⟩ := ih hLater
          exact ⟨w, List.mem_cons_of_mem _ hw, rfl⟩

/-- `map_page` fails when a missing table is refused. -/
theorem ensureTable_refused {d flags : Nat} {ok : Bool}
    (h : ensureTable ptr d flags vm = some (ok, vm')) :
    ok = false ↔ ¬HasTable vm d ∧ (allocate 4096 vm.pmm).1 = 0 := by
  unfold ensureTable at h
  by_cases hHas : HasTable vm d
  · rw [if_neg (hasTable_iff.mp hHas)] at h
    cases h
    exact iff_of_false Bool.noConfusion fun hBoth => hBoth.1 hHas
  · rw [if_pos (not_not.mp (mt hasTable_iff.mpr hHas))] at h
    simp only at h
    split at h
    · next hZero =>
        cases h
        exact iff_of_true rfl ⟨hHas, hZero⟩
    · next hSome =>
        obtain ⟨vm₁, -, hEq⟩ := Option.map_eq_some_iff.mp h
        cases hEq
        exact iff_of_false Bool.noConfusion fun hBoth => hSome hBoth.2

/-- `map_page` writes the table word unless the table is refused. -/
theorem log_mapPageLogged {physical virtual flags : Nat}
    (h : mapPage ptr physical virtual flags vm = some vm') :
    (mapPageLogged ptr physical virtual flags vm).log =
      if ¬HasTable vm (pageOf virtual / 1024) ∧ (allocate 4096 vm.pmm).1 = 0 then []
      else [.maps virtual] := by
  obtain ⟨⟨ok, vm₁⟩, hTable, hRest⟩ := Option.bind_eq_some_iff.mp h
  rw [mapPageLogged, log_andThen hTable]
  rw [shift_directory] at hTable
  have hRefused := ensureTable_refused hTable
  cases ok with
  | false => rw [if_pos (hRefused.mp rfl)]; rfl
  | true =>
      rw [if_neg (mt hRefused.mpr Bool.noConfusion)]
      have hEntry : writeEntry ptr physical virtual flags vm₁ = some vm' := hRest
      simp only [if_true, hEntry]
      rfl

/-- **One turn** of the mapping loop maps its page, or its table is refused. -/
theorem turn_maps {v : Nat} (vs : List Nat) (hSome : (allocate 4096 vm.pmm).1 ≠ 0)
    (hMap : mapPage ptr (allocate 4096 vm.pmm).1 v (pagePresent ||| pageUser ||| pageWrite)
      { vm with pmm := (allocate 4096 vm.pmm).2 } = some vm') :
    (mapPageLogged ptr (allocate 4096 vm.pmm).1 v (pagePresent ||| pageUser ||| pageWrite)
        { vm with pmm := (allocate 4096 vm.pmm).2 }).log = [.maps v] ∧
        untabled (v :: vs) (tables vm) vm.pmm = untabled vs (tables vm') vm'.pmm ∨
      (mapPageLogged ptr (allocate 4096 vm.pmm).1 v (pagePresent ||| pageUser ||| pageWrite)
        { vm with pmm := (allocate 4096 vm.pmm).2 }).log = [] ∧
        untabled (v :: vs) (tables vm) vm.pmm =
          (untabled vs (tables vm') vm'.pmm).map fun ws => v :: ws := by
  rw [log_mapPageLogged hMap, untabled]
  rcases mapPage_drawn_tables hMap with ⟨hHas, hPmm, hTables⟩ | ⟨hHas, hPmm, hTables⟩
  · refine Or.inl ⟨if_neg fun hBoth => hBoth.1 hHas, ?_⟩
    have hTabled : tables vm (pageOf v / 1024) = true := decide_eq_true hHas
    simp only [if_neg hSome, if_pos hTabled]
    rw [hPmm, hTables]
  · have hNone : ¬tables vm (pageOf v / 1024) = true := by simpa [tables] using hHas
    simp only [if_neg hSome, if_neg hNone]
    by_cases hZero : (allocate 4096 (allocate 4096 vm.pmm).2).1 = 0
    · refine Or.inr ⟨if_pos ⟨hHas, hZero⟩, ?_⟩
      have hSame : tables vm' = tables vm := by
        have hFull : mapPage ptr (allocate 4096 vm.pmm).1 v
            (pagePresent ||| pageUser ||| pageWrite)
            { vm with pmm := (allocate 4096 vm.pmm).2 } =
            some { vm with pmm := (allocate 4096 (allocate 4096 vm.pmm).2).2 } :=
          mapPage_full hHas hZero
        cases hFull.symm.trans hMap
        rfl
      rw [if_pos hZero, hPmm, hSame]
    · refine Or.inl ⟨if_neg fun hBoth => hZero hBoth.2, ?_⟩
      rw [if_neg hZero, hPmm, hTables hZero]

/-- **The mapping loop** maps the pages that get their table. -/
theorem mapPagesLogged_maps {vs : List Nat} (hNodup : vs.Nodup) {done : Bool}
    (h : mapPages ptr vs vm = some (done, vm')) :
    (done = false ∧ untabled vs (tables vm) vm.pmm = none) ∨
      done = true ∧ ∃ ws, untabled vs (tables vm) vm.pmm = some ws ∧ (∀ w ∈ ws, w ∈ vs) ∧
        ∀ v ∈ vs, .maps v ∈ (mapPagesLogged ptr vs vm).log ↔ v ∉ ws := by
  induction vs generalizing vm with
  | nil =>
      cases h
      exact Or.inr ⟨rfl, [], rfl, by simp, by simp⟩
  | cons v vs ih =>
      obtain ⟨hNew, hNodup⟩ := List.nodup_cons.mp hNodup
      rw [mapPages] at h
      split at h
      · next hZero =>
          cases h
          exact Or.inl ⟨rfl, by rw [untabled]; exact if_pos hZero⟩
      · next hSome =>
          obtain ⟨vm₁, hMap, hRest⟩ := Option.bind_eq_some_iff.mp h
          have hLog : (mapPagesLogged ptr (v :: vs) vm).log =
              (mapPageLogged ptr (allocate 4096 vm.pmm).1 v
                (pagePresent ||| pageUser ||| pageWrite)
                { vm with pmm := (allocate 4096 vm.pmm).2 }).log ++
                  (mapPagesLogged ptr vs vm₁).log := by
            rw [mapPagesLogged]
            simp only [if_neg hSome]
            rw [log_andThen ((result_mapPageLogged ..).trans hMap)]
          have hFresh : .maps v ∉ (mapPagesLogged ptr vs vm₁).log := fun hMaps => by
            obtain ⟨u, hu, hEq⟩ := mem_mapPagesLogged hMaps
            cases hEq
            exact hNew hu
          have hOther : ∀ w ∈ vs, w ≠ v := fun w hw hEq => hNew (hEq ▸ hw)
          rw [hLog]
          rcases turn_maps vs hSome hMap with ⟨hHere, hNext⟩ | ⟨hHere, hNext⟩
          · rw [hHere, hNext]
            rcases ih hNodup hRest with hNone | ⟨hDone, ws, hWords, hIn, hMaps⟩
            · exact Or.inl hNone
            · refine Or.inr ⟨hDone, ws, hWords, fun w hw => List.mem_cons_of_mem _ (hIn w hw),
                List.forall_mem_cons.mpr ⟨?_, fun w hw => ?_⟩⟩
              · exact iff_of_true List.mem_cons_self fun hv => hNew (hIn v hv)
              · rw [List.singleton_append, List.mem_cons, Access.maps.injEq,
                  or_iff_right (hOther w hw)]
                exact hMaps w hw
          · rw [hHere, hNext, List.nil_append]
            rcases ih hNodup hRest with ⟨hDone, hNone⟩ | ⟨hDone, ws, hWords, hIn, hMaps⟩
            · exact Or.inl ⟨hDone, by rw [hNone]; rfl⟩
            · refine Or.inr ⟨hDone, v :: ws, by rw [hWords]; rfl,
                List.forall_mem_cons.mpr ⟨List.mem_cons_self,
                  fun w hw => List.mem_cons_of_mem _ (hIn w hw)⟩,
                List.forall_mem_cons.mpr ⟨?_, fun w hw => ?_⟩⟩
              · exact iff_of_false hFresh fun hNot => hNot List.mem_cons_self
              · rw [hMaps w hw, List.mem_cons, or_iff_right (hOther w hw)]

/-- A loop writes from its first address on, and all its bytes if it is completed. -/
theorem log_putLogged (tr : Mem → Nat → Option Nat) (dest n : Nat)
    (byte : Mem → Nat → Option UInt8) (m : Mem) :
    ∃ k ≤ n, (putLogged tr dest n byte m).log =
        (List.range k).map (fun i => .writes ((dest + i) % 2 ^ 32)) ∧
      ((put tr dest n byte m).isSome → k = n) := by
  obtain ⟨k, hLe, hLog, hAll⟩ := log_loop (e := fun i => Access.writes ((dest + i) % 2 ^ 32))
    (r := fun m i => (byte m i).bind (putByte tr m (dest + i))) (List.range n) m
  rw [List.length_range] at hLe hAll
  rw [List.take_range, Nat.min_eq_left hLe] at hLog
  rw [← result_putLogged]
  exact ⟨k, hLe, hLog, hAll⟩

/-- **The bytes** that are copied and cleared, as far as the call gets. -/
theorem copySegmentLogged_writes {ph file : Nat} (hShows : Shows ptr ph s vm)
    (hCopied : ∀ vm₁, memcpy ptr s.vaddr (file + s.offset) s.filesz vm = some vm₁ →
      Shows ptr ph s vm₁) :
    (∀ e ∈ (copySegmentLogged ptr ph file vm).log,
        ∃ k < max s.filesz s.memsz, e = .writes ((s.vaddr + k) % 2 ^ 32)) ∧
      ((copySegment ptr ph file vm).isSome → ∀ k < max s.filesz s.memsz,
        .writes ((s.vaddr + k) % 2 ^ 32) ∈ (copySegmentLogged ptr ph file vm).log) := by
  obtain ⟨hOffset, hVaddr, hFilesz, -⟩ := hShows
  rw [← result_copySegmentLogged]
  simp only [copySegmentLogged, hOffset, hVaddr, hFilesz, silent_some_andThen]
  obtain ⟨n, hLe, hLog, hAll⟩ := log_putLogged (through ptr vm) s.vaddr s.filesz
    (fun m i => fetchByte (through ptr vm) m (file + s.offset + i)) vm.mem
  have hCopyLog : (memcpyLogged ptr s.vaddr (file + s.offset) s.filesz vm).log =
      (List.range n).map fun i => .writes ((s.vaddr + i) % 2 ^ 32) := by
    rw [memcpyLogged, log_andThen_done, hLog]
  have hFirst : ∀ e ∈ (memcpyLogged ptr s.vaddr (file + s.offset) s.filesz vm).log,
      ∃ k < max s.filesz s.memsz, e = .writes ((s.vaddr + k) % 2 ^ 32) := by
    intro e he
    rw [hCopyLog] at he
    obtain ⟨k, hk, rfl⟩ := List.mem_map.mp he
    have hk := List.mem_range.mp hk
    exact ⟨k, by omega, rfl⟩
  cases hCopy : memcpy ptr s.vaddr (file + s.offset) s.filesz vm with
  | none =>
      have hStop := (result_memcpyLogged ptr s.vaddr (file + s.offset) s.filesz vm).trans hCopy
      rw [log_andThen_stop hStop, result_andThen, hStop]
      exact ⟨hFirst, fun hSome => absurd hSome (by simp)⟩
  | some vm₁ =>
      have hRun := (result_memcpyLogged ptr s.vaddr (file + s.offset) s.filesz vm).trans hCopy
      obtain ⟨-, hVaddr₁, hFilesz₁, hMemsz₁⟩ := hCopied vm₁ hCopy
      rw [log_andThen hRun, result_andThen, hRun, Option.bind_some]
      simp only [hVaddr₁, hFilesz₁, hMemsz₁, silent_some_andThen]
      have hWhole : n = s.filesz := by
        obtain ⟨m, hPut, -⟩ := Option.map_eq_some_iff.mp hCopy
        exact hAll (Option.isSome_iff_exists.mpr ⟨m, hPut⟩)
      subst hWhole
      have hCopied : ∀ k < s.filesz, .writes ((s.vaddr + k) % 2 ^ 32) ∈
          (memcpyLogged ptr s.vaddr (file + s.offset) s.filesz vm).log := by
        intro k hk
        rw [hCopyLog]
        exact List.mem_map_of_mem (List.mem_range.mpr hk)
      by_cases hRest : s.filesz < s.memsz
      · -- the zeros behind the file's part
        rw [if_pos hRest]
        obtain ⟨n, hLe, hLog, hAll⟩ := log_putLogged (through ptr vm₁) (s.vaddr + s.filesz)
          (s.memsz - s.filesz) (fun _ _ => some (UInt8.ofNat 0)) vm₁.mem
        have hZeroLog : (memsetLogged ptr (s.vaddr + s.filesz) 0 (s.memsz - s.filesz) vm₁).log =
            (List.range n).map fun i => .writes ((s.vaddr + s.filesz + i) % 2 ^ 32) := by
          rw [memsetLogged, log_andThen_done, hLog]
        refine ⟨fun e he => ?_, fun hSome k hk => ?_⟩
        · rcases List.mem_append.mp he with hHere | hLater
          · exact hFirst e hHere
          · rw [hZeroLog] at hLater
            obtain ⟨k, hk, rfl⟩ := List.mem_map.mp hLater
            have hk := List.mem_range.mp hk
            exact ⟨s.filesz + k, by omega, by rw [Nat.add_assoc]⟩
        · by_cases hHere : k < s.filesz
          · exact List.mem_append_left _ (hCopied k hHere)
          · have hWhole : n = s.memsz - s.filesz := by
              rw [result_memsetLogged] at hSome
              obtain ⟨vm₂, hFill⟩ := Option.isSome_iff_exists.mp hSome
              obtain ⟨m, hPut, -⟩ := Option.map_eq_some_iff.mp hFill
              exact hAll (Option.isSome_iff_exists.mpr ⟨m, hPut⟩)
            refine List.mem_append_right _ ?_
            rw [hZeroLog]
            refine List.mem_map.mpr ⟨k - s.filesz, List.mem_range.mpr (by omega), ?_⟩
            rw [show s.vaddr + s.filesz + (k - s.filesz) = s.vaddr + k by omega]
      · rw [if_neg hRest, log_done, List.append_nil]
        exact ⟨hFirst, fun _ k hk => hCopied k (by omega)⟩

/-! ## The result -/

/-- A log without writes is contained. -/
theorem Contained.of_none {pages : List Nat} {log : List Access} (h : ∀ a, .writes a ∉ log) :
    Contained pages log :=
  ⟨fun a ha => absurd ha (h a), fun _ => h⟩

/-- The accesses of a call that gets past its mapping loop. -/
theorem log_loadSegmentLogged {ph file : Nat} (hShows : Shows ptr ph s vm)
    (hMap : mapPages ptr s.pages vm = some (true, vm')) :
    (loadSegmentLogged ptr ph file vm).log =
      (mapPagesLogged ptr s.pages vm).log ++ (copySegmentLogged ptr ph file vm').log := by
  obtain ⟨-, hVaddr, -, hMemsz⟩ := hShows
  simp only [loadSegmentLogged, hVaddr, hMemsz, silent_some_andThen]
  exact log_andThen ((result_mapPagesLogged ..).trans hMap) _

/-- The accesses of a call that does not. -/
theorem loadSegmentLogged_none {ph file : Nat} (hShows : Shows ptr ph s vm)
    (hMap : ∀ vm', mapPages ptr s.pages vm ≠ some (true, vm')) (a : Nat) :
    .writes a ∉ (loadSegmentLogged ptr ph file vm).log := by
  obtain ⟨-, hVaddr, -, hMemsz⟩ := hShows
  simp only [loadSegmentLogged, hVaddr, hMemsz, silent_some_andThen]
  rintro hWrites
  rcases mem_andThen.mp hWrites with hHere | ⟨⟨ok, vm'⟩, hResult, hLater⟩
  · obtain ⟨v, -, hEq⟩ := mem_mapPagesLogged hHere
    cases hEq
  · rw [result_mapPagesLogged] at hResult
    cases ok with
    | true => exact hMap vm' hResult
    | false => exact absurd hLater List.not_mem_nil

/-- **`load_segment` keeps to the pages it has mapped** if the header fits them and they
all got their tables; and a call that returns does so only then.  The mapping of a header
off the kernel's pages leaves the kernel's own memory alone. -/
theorem load_segment_contained {layout : Layout} (ptr : Vm → Nat → Option Nat) (ph file : Nat)
    (s : Segment) (vm : Vm) (hHeader : Header ptr ph file s vm)
    (hOff : OffKernel layout ptr s vm) :
    (∀ r ∈ mapPages ptr s.pages vm, Leaves layout vm r.2) ∧
      (Confined s vm → Contained s.pages (loadSegmentLogged ptr ph file vm).log) ∧
      ((loadSegment ptr ph file vm).isSome →
        Contained s.pages (loadSegmentLogged ptr ph file vm).log → Confined s vm) := by
  refine ⟨fun r hMap => hOff.leaves hMap, ?_⟩
  obtain ⟨hVaddr, -, hMemsz⟩ := hHeader.atStart.lt
  have hReturn : ∀ vm₁, mapPages ptr s.pages vm = some (true, vm₁) →
      loadSegment ptr ph file vm = copySegment ptr ph file vm₁ := by
    intro vm₁ hMap
    obtain ⟨-, hVaddr, -, hMemsz⟩ := hHeader.atStart
    have hMap : mapPages ptr (segmentPages s.vaddr s.memsz) vm = some (true, vm₁) := hMap
    simp only [loadSegment, hVaddr, hMemsz, hMap, Option.bind_eq_bind, Option.bind_some, if_true]
  by_cases hLoop : ∃ vm₁, mapPages ptr s.pages vm = some (true, vm₁)
  · obtain ⟨vm₁, hMap⟩ := hLoop
    obtain ⟨hOnly, hAll⟩ := copySegmentLogged_writes (hHeader.mapped vm₁ hMap)
      fun vm₂ hCopy => hHeader.copied vm₁ vm₂ hMap hCopy
    obtain ⟨ws, hWords, hIn, hMaps⟩ : ∃ ws, untabled s.pages (tables vm) vm.pmm = some ws ∧
        (∀ w ∈ ws, w ∈ s.pages) ∧
          ∀ v ∈ s.pages, .maps v ∈ (mapPagesLogged ptr s.pages vm).log ↔ v ∉ ws := by
      rcases mapPagesLogged_maps (segmentPages_nodup _ _) hMap with ⟨hFalse, -⟩ | ⟨-, hSome⟩
      · exact Bool.noConfusion hFalse
      · exact hSome
    rw [hReturn vm₁ hMap, log_loadSegmentLogged hHeader.atStart hMap]
    have hWrites : ∀ a, .writes a ∈ (mapPagesLogged ptr s.pages vm).log ++
        (copySegmentLogged ptr ph file vm₁).log →
          ∃ k < max s.filesz s.memsz, a = (s.vaddr + k) % 2 ^ 32 := by
      intro a ha
      rcases List.mem_append.mp ha with hHere | hLater
      · obtain ⟨v, -, hEq⟩ := mem_mapPagesLogged hHere
        cases hEq
      · obtain ⟨k, hk, hEq⟩ := hOnly _ hLater
        exact ⟨k, hk, Access.writes.inj hEq⟩
    have hMapped : ∀ v, .maps v ∈ (mapPagesLogged ptr s.pages vm).log ++
        (copySegmentLogged ptr ph file vm₁).log → v ∈ s.pages ∧ v ∉ ws := by
      intro v hv
      rcases List.mem_append.mp hv with hHere | hLater
      · obtain ⟨u, hu, hEq⟩ := mem_mapPagesLogged hHere
        cases hEq
        exact ⟨hu, (hMaps v hu).mp hHere⟩
      · obtain ⟨k, -, hEq⟩ := hOnly _ hLater
        cases hEq
    constructor
    · rintro (⟨hFilesz, hMemsz⟩ | hRefused | ⟨hTabled, hFits⟩)
      · refine Contained.of_none fun a ha => ?_
        obtain ⟨k, hk, -⟩ := hWrites a ha
        omega
      · rw [hRefused] at hWords
        cases hWords
      · rw [hTabled] at hWords
        cases hWords
        refine ⟨fun a ha => ?_, fun hSome => ?_⟩
        · obtain ⟨k, hk, rfl⟩ := hWrites a ha
          obtain ⟨v, hv, hPage⟩ := hFits.covered hk
          exact ⟨v, List.mem_append_left _ ((hMaps v hv).mpr List.not_mem_nil), hPage⟩
        · obtain ⟨v, hv, hNot⟩ := hSome
          exact absurd (List.mem_append_left _ ((hMaps v hv).mpr List.not_mem_nil)) hNot
    · rintro hReturns ⟨hInside, hNothing⟩
      by_contra hNot
      have hBytes : 0 < max s.filesz s.memsz := by
        by_contra hZero
        exact hNot (Or.inl (by omega))
      have hWritten := fun k hk => List.mem_append_right (mapPagesLogged ptr s.pages vm).log
        (hAll hReturns k hk)
      cases ws with
      | nil =>
          obtain ⟨k, hk, hStray⟩ := exists_stray hVaddr hMemsz hBytes
            fun hFits => hNot (Or.inr (Or.inr ⟨hWords, hFits⟩))
          obtain ⟨v, hv, hPage⟩ := hInside _ (hWritten k hk)
          exact hStray v (hMapped v hv).1 hPage
      | cons w ws =>
          refine hNothing ⟨w, hIn w List.mem_cons_self, fun hw => ?_⟩ _ (hWritten 0 hBytes)
          exact (hMapped w hw).2 List.mem_cons_self
  · have hNone : ∀ a, .writes a ∉ (loadSegmentLogged ptr ph file vm).log :=
      loadSegmentLogged_none hHeader.atStart fun vm₁ hMap => hLoop ⟨vm₁, hMap⟩
    refine ⟨fun _ => Contained.of_none hNone, fun hReturns _ => ?_⟩
    cases hMap : mapPages ptr s.pages vm with
    | none =>
        obtain ⟨-, hVaddr, -, hMemsz⟩ := hHeader.atStart
        have hMap : mapPages ptr (segmentPages s.vaddr s.memsz) vm = none := hMap
        simp only [loadSegment, hVaddr, hMemsz, hMap, Option.bind_eq_bind, Option.bind_some,
          Option.bind_none, Option.isSome_none, Bool.false_eq_true] at hReturns
    | some r =>
        obtain ⟨ok, vm₁⟩ := r
        rcases mapPagesLogged_maps (segmentPages_nodup _ _) hMap with ⟨-, hRefused⟩ | ⟨hTrue, -⟩
        · exact Or.inr (Or.inl hRefused)
        · exact absurd ⟨vm₁, hTrue ▸ hMap⟩ hLoop

/-- A header that is there when the call is run. -/
theorem Header.of_run {ph file : Nat} (hStart : Shows ptr ph s vm)
    (hRun : (mapPages ptr s.pages vm).all fun r => decide (Shows ptr ph s r.2) &&
      (memcpy ptr s.vaddr (file + s.offset) s.filesz r.2).all
        fun vm₂ => decide (Shows ptr ph s vm₂)) : Header ptr ph file s vm := by
  have hMapped : ∀ vm₁, mapPages ptr s.pages vm = some (true, vm₁) → Shows ptr ph s vm₁ ∧
      (memcpy ptr s.vaddr (file + s.offset) s.filesz vm₁).all
        fun vm₂ => decide (Shows ptr ph s vm₂) := by
    intro vm₁ hMap
    rw [hMap, Option.all_some, Bool.and_eq_true, decide_eq_true_eq] at hRun
    exact hRun
  refine ⟨hStart, fun vm₁ hMap => (hMapped vm₁ hMap).1, fun vm₁ vm₂ hMap hCopy => ?_⟩
  have hAll := (hMapped vm₁ hMap).2
  rw [hCopy, Option.all_some, decide_eq_true_eq] at hAll
  exact hAll

/-- A segment of one byte is written to the page that was mapped for it. -/
theorem load_segment_contained_oneByte :
    Contained [0x300000] (loadSegmentLogged pageWalk 0x24034 0x24000
      (ElfSegments.bootWith PmmOwnership.pcMap (ElfSegments.onePage etExec))).log := by
  have hOff : OffKernel image pageWalk ⟨84, 0x300000, 1, 1⟩
      (ElfSegments.bootWith PmmOwnership.pcMap (ElfSegments.onePage etExec)) := by
    refine ⟨boot_inPlace .., ?_, ?_, ?_⟩
    all_goals
      rw [ElfSegments.bootWith, boot_eq]
      decide +kernel
  refine (load_segment_contained pageWalk 0x24034 0x24000 ⟨84, 0x300000, 1, 1⟩ _
    (Header.of_run ?_ ?_) hOff).2.1 ?_
  all_goals
    rw [ElfSegments.bootWith, boot_eq]
    decide +kernel

/-- A file whose segment has one byte of memory, the last of a page, and two in the file. -/
def longFile : List UInt8 :=
  ElfSegments.fileBytes etExec 0x300FFF [⟨84, 0x300FFF, 2, 1⟩] [0xAA, 0xBB]

/-- The second byte is written to the page behind the one that was mapped. -/
theorem load_segment_strays :
    Header pageWalk 0x24034 0x24000 ⟨84, 0x300FFF, 2, 1⟩
        (ElfSegments.bootWith PmmOwnership.pcMap longFile) ∧
      (loadSegment pageWalk 0x24034 0x24000
        (ElfSegments.bootWith PmmOwnership.pcMap longFile)).isSome ∧
      ¬Contained (segmentPages 0x300FFF 1) (loadSegmentLogged pageWalk 0x24034 0x24000
        (ElfSegments.bootWith PmmOwnership.pcMap longFile)).log := by
  have hLog : (loadSegmentLogged pageWalk 0x24034 0x24000
      (ElfSegments.bootWith PmmOwnership.pcMap longFile)).log =
        [.maps 0x300000, .writes 0x300FFF, .writes 0x301000] := by
    rw [ElfSegments.bootWith, boot_eq]
    decide +kernel
  refine ⟨Header.of_run ?_ ?_, ?_, ?_⟩
  · rw [ElfSegments.bootWith, boot_eq]
    decide +kernel
  · rw [ElfSegments.bootWith, boot_eq]
    decide +kernel
  · rw [ElfSegments.bootWith, boot_eq]
    decide +kernel
  · rw [hLog]
    rintro ⟨hInside, -⟩
    obtain ⟨v, hv, hPage⟩ := hInside 0x301000 (by decide)
    simp only [List.mem_cons, Access.maps.injEq, reduceCtorEq, List.not_mem_nil, or_false] at hv
    subst hv
    exact absurd hPage (by decide)

end MiniKernel.Ports.ElfWrites

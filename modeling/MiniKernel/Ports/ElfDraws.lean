import MiniKernel.Ports.ElfFrame
import MiniKernel.Ports.PagingDraws

/-!
# What loading a program draws

`load_segment` asks for a frame for every page of a segment, and `map_page` for
another one when the page needs a table.  `requests` counts these calls from the
pages alone, before anything is loaded; `Serves` says that the memory map answers a
number of calls in a row.

A load makes the calls in turn and ends a segment at the first that fails, and after
this one none is answered.  So a load that leaves the headers of its file alone draws
what they ask for, or all there is (`Draws`).
-/

namespace MiniKernel.Ports.ElfDraws

open MiniKernel.Verified.ByteMemory
open MiniKernel.Verified.PageWords
open MiniKernel.Verified.VirtualMemory
open MiniKernel.Ports.Pmm
open MiniKernel.Ports.PmmCoverage (Intact)
open MiniKernel.Ports.Paging
open MiniKernel.Ports.PagingTables
open MiniKernel.Ports.PagingKept
open MiniKernel.Ports.PagingIdentity
open MiniKernel.Ports.PagingDraws
open MiniKernel.Ports.Elf
open MiniKernel.Ports.ElfLoading
open MiniKernel.Ports.ElfFrame

/-! ## Calls in a row -/

/-- The map after `n` calls of `allocate` for a page. -/
def drawn : Nat → Table → Table
  | 0, t => t
  | n + 1, t => drawn n (allocate 4096 t).2

/-- The map answers `n` calls in a row. -/
def Serves : Nat → Table → Prop
  | 0, _ => True
  | n + 1, t => (allocate 4096 t).1 ≠ 0 ∧ Serves n (allocate 4096 t).2

instance Serves.decidable : (n : Nat) → (t : Table) → Decidable (Serves n t)
  | 0, _ => .isTrue trivial
  | n + 1, t =>
      have := Serves.decidable n (allocate 4096 t).2
      inferInstanceAs (Decidable (_ ∧ _))

theorem drawn_add (a b : Nat) (t : Table) : drawn (a + b) t = drawn b (drawn a t) := by
  induction a generalizing t with
  | zero => rw [Nat.zero_add, drawn]
  | succ a ih => rw [Nat.add_right_comm, drawn, ih, drawn]

theorem serves_add (a b : Nat) (t : Table) :
    Serves (a + b) t ↔ Serves a t ∧ Serves b (drawn a t) := by
  induction a generalizing t with
  | zero => simp [Serves, drawn]
  | succ a ih => rw [Nat.add_right_comm, Serves, ih, Serves, drawn, and_assoc]

theorem serves_one (t : Table) : Serves 1 t ↔ (allocate 4096 t).1 ≠ 0 := by
  simp [Serves]

/-- A map that cannot answer a call answers none. -/
theorem not_serves {n : Nat} {t : Table} (hFails : Fails 4096 t.entries) (hn : 0 < n) :
    ¬Serves n t := by
  cases n with
  | zero => omega
  | succ n => exact fun hServes => hServes.1 (allocate_fails hFails).1

theorem allocate_still_fails {t : Table} (hFails : Fails 4096 t.entries) :
    Fails 4096 (allocate 4096 t).2.entries := by
  rw [(allocate_fails hFails).2]
  exact hFails

/-- A map in order that offers nothing at 4 GiB or above. -/
structure Offering (boot es : List MemoryMap) : Prop where
  intact : Intact boot es
  low : ∀ x, Usable es x → x < 2 ^ 32

theorem Offering.drawn {boot es es' : List MemoryMap} (h : Offering boot es)
    (hDrawn : Drawn boot es es') : Offering boot es' :=
  ⟨hDrawn.intact, fun x hx => h.low x (hDrawn.usable x hx)⟩

theorem Offering.allocate {boot : List MemoryMap} {t : Table} (h : Offering boot t.entries) :
    Offering boot (allocate 4096 t).2.entries :=
  h.drawn (allocate_drawn h.intact)

/-- **The answer `0`** means that the map has nothing to offer. -/
theorem Offering.fails {boot : List MemoryMap} {t : Table} (h : Offering boot t.entries)
    (hZero : (Pmm.allocate 4096 t).1 = 0) : Fails 4096 t.entries := by
  rcases allocate_carves 4096 t with ⟨hFails, -⟩ | ⟨-, pre, e, post, hBest, hBase, -⟩
  · exact hFails
  · obtain ⟨hNonzero, hFit, hType⟩ := hBest.candidate
    have hLow : e.base < 2 ^ 32 := by
      refine h.low e.base ⟨e, hBest.mem, hType, Nat.le_refl _, ?_⟩
      simp only [PmmOwnership.extentOf]
      omega
    rw [hBase, Nat.mod_eq_of_lt hLow] at hZero
    exact absurd hZero hNonzero

/-! ## What pages ask for -/

/-- The directory entries that have a table. -/
def tables (vm : Vm) : Nat → Bool := fun d => HasTable vm d

/-- The calls of `allocate` that mapping the pages at `vs` takes, if all are answered. -/
def requests : List Nat → (Nat → Bool) → Nat
  | [], _ => 0
  | v :: vs, present =>
      if present (pageOf v / 1024) then requests vs present + 1
      else requests vs (fun d => d == pageOf v / 1024 || present d) + 2

/-- The directory entries that have a table then. -/
def provided : List Nat → (Nat → Bool) → Nat → Bool
  | [], present => present
  | v :: vs, present => provided vs fun d => d == pageOf v / 1024 || present d

theorem provided_present {v : Nat} {present : Nat → Bool}
    (h : present (pageOf v / 1024) = true) :
    (fun d => d == pageOf v / 1024 || present d) = present := by
  funext d
  by_cases hd : d = pageOf v / 1024
  · simp [hd, h]
  · simp [hd]

theorem requests_append (vs ws : List Nat) (present : Nat → Bool) :
    requests (vs ++ ws) present = requests vs present + requests ws (provided vs present) := by
  induction vs generalizing present with
  | nil => rw [List.nil_append, requests, provided, Nat.zero_add]
  | cons v vs ih =>
      rw [List.cons_append, requests, requests, provided]
      split
      · next hPresent =>
          rw [ih, provided_present hPresent]
          omega
      · rw [ih]
        omega

theorem provided_append (vs ws : List Nat) (present : Nat → Bool) :
    provided (vs ++ ws) present = provided ws (provided vs present) := by
  induction vs generalizing present with
  | nil => rfl
  | cons v vs ih => rw [List.cons_append, provided, ih, provided]

/-- From `vm` to `vm'` the frames for the pages at `vs` were drawn, or all there were. -/
structure Draws (vs : List Nat) (vm vm' : Vm) : Prop where
  served : Serves (requests vs (tables vm)) vm.pmm →
    vm'.pmm = drawn (requests vs (tables vm)) vm.pmm ∧ tables vm' = provided vs (tables vm)
  failed : ¬Serves (requests vs (tables vm)) vm.pmm → Fails 4096 vm'.pmm.entries

variable {vm vm' : Vm}

theorem tables_congr (h : ∀ d, SameTable vm vm' d) : tables vm' = tables vm := by
  funext d
  exact decide_eq_decide.mpr (h d).1

/-- A new directory entry is a table more. -/
theorem tables_set (vm : Vm) (directory : Nat) {entry : Nat} (hEntry : Present entry) :
    tables { vm with pageDirectory := setWord vm.pageDirectory directory entry } =
      fun d => d == directory || tables vm d := by
  have hHas : ∀ d, HasTable { vm with pageDirectory := setWord vm.pageDirectory directory entry } d ↔
      d = directory ∨ HasTable vm d := by
    intro d
    unfold HasTable setWord
    by_cases hd : d = directory
    · simp only [if_pos hd]
      exact iff_of_true hEntry (Or.inl hd)
    · simp only [if_neg hd]
      exact (or_iff_right hd).symm
  funext d
  simp only [tables, hHas, Bool.decide_or]
  rfl

theorem Draws.same (hPmm : vm'.pmm = vm.pmm) (hDirectory : vm'.pageDirectory = vm.pageDirectory) :
    Draws [] vm vm' where
  served _ := ⟨hPmm, tables_congr fun d => sameTable_of_eq (by rw [hDirectory])⟩
  failed h := absurd trivial h

/-- Nothing is drawn from a map that has nothing to offer. -/
theorem Draws.still_fails {vs : List Nat} (h : Draws vs vm vm')
    (hFails : Fails 4096 vm.pmm.entries) : Fails 4096 vm'.pmm.entries := by
  by_cases hServes : Serves (requests vs (tables vm)) vm.pmm
  · have hZero : requests vs (tables vm) = 0 := by
      by_contra hne
      exact not_serves hFails (Nat.pos_of_ne_zero hne) hServes
    rw [(h.served hServes).1, hZero]
    exact hFails
  · exact h.failed hServes

/-- **One after the other.** -/
theorem Draws.trans {vs ws : List Nat} {vm₁ vm₂ vm₃ : Vm} (h : Draws vs vm₁ vm₂)
    (h' : Draws ws vm₂ vm₃) : Draws (vs ++ ws) vm₁ vm₃ := by
  have hSplit := serves_add (requests vs (tables vm₁)) (requests ws (provided vs (tables vm₁)))
    vm₁.pmm
  rw [← requests_append] at hSplit
  by_cases hFirst : Serves (requests vs (tables vm₁)) vm₁.pmm
  · obtain ⟨hPmm, hTables⟩ := h.served hFirst
    obtain ⟨hServed, hFailed⟩ := h'
    rw [hPmm, hTables] at hServed hFailed
    refine ⟨fun hServes => ?_, fun hNot => hFailed fun hRest => hNot (hSplit.mpr ⟨hFirst, hRest⟩)⟩
    rw [requests_append, drawn_add, provided_append]
    exact hServed (hSplit.mp hServes).2
  · refine ⟨fun hServes => absurd (hSplit.mp hServes).1 hFirst, fun _ => ?_⟩
    exact h'.still_fails (h.failed hFirst)

/-- **The next call** is answered exactly if the map serves one more. -/
theorem Draws.answers {vs : List Nat} (h : Draws vs vm vm') :
    (allocate 4096 vm'.pmm).1 ≠ 0 ↔ Serves (requests vs (tables vm) + 1) vm.pmm := by
  rw [serves_add, ← serves_one]
  by_cases hServes : Serves (requests vs (tables vm)) vm.pmm
  · rw [(h.served hServes).1]
    exact ⟨fun hNext => ⟨hServes, hNext⟩, And.right⟩
  · exact iff_of_false (not_serves (h.failed hServes) Nat.one_pos) fun hBoth => hServes hBoth.1

/-! ## Mapping -/

section Mapping

variable {ptr : Vm → Nat → Option Nat} {boot : List MemoryMap}

theorem writeEntry_tables {physical virtual flags : Nat}
    (h : writeEntry ptr physical virtual flags vm = some vm') : tables vm' = tables vm := by
  obtain ⟨p, -, rfl⟩ := Option.map_eq_some_iff.mp h
  exact tables_congr fun d => sameTable_user vm _ _ flags d rfl

/-- **`map_page`** draws the frame of a missing table, and then the table is there. -/
theorem mapPage_tables {physical virtual flags : Nat}
    (h : mapPage ptr physical virtual flags vm = some vm') :
    HasTable vm (pageOf virtual / 1024) ∧ vm'.pmm = vm.pmm ∧ tables vm' = tables vm ∨
      ¬HasTable vm (pageOf virtual / 1024) ∧ vm'.pmm = (allocate 4096 vm.pmm).2 ∧
        ((allocate 4096 vm.pmm).1 ≠ 0 →
          tables vm' = fun d => d == pageOf virtual / 1024 || tables vm d) := by
  obtain ⟨⟨ok, vm₁⟩, hTable, hRest⟩ := Option.bind_eq_some_iff.mp h
  have hEntry : vm'.pmm = vm₁.pmm ∧ tables vm' = tables vm₁ := by
    cases ok with
    | true =>
        have hTables := writeEntry_tables hRest
        obtain ⟨p, -, rfl⟩ := Option.map_eq_some_iff.mp hRest
        exact ⟨rfl, hTables⟩
    | false =>
        cases hRest
        exact ⟨rfl, rfl⟩
  rw [hEntry.1, hEntry.2]
  rw [shift_directory] at hTable
  unfold ensureTable at hTable
  by_cases hHas : HasTable vm (pageOf virtual / 1024)
  · rw [if_neg (hasTable_iff.mp hHas)] at hTable
    cases hTable
    exact Or.inl ⟨hHas, rfl, rfl⟩
  · rw [if_pos (not_not.mp (mt hasTable_iff.mpr hHas))] at hTable
    refine Or.inr ⟨hHas, ?_⟩
    simp only at hTable
    split at hTable
    · next hZero =>
        cases hTable
        exact ⟨rfl, fun hSome => absurd hZero hSome⟩
    · obtain ⟨vm₂, hClear, hEq⟩ := Option.map_eq_some_iff.mp hTable
      cases hEq
      refine ⟨clearTable_pmm hClear, fun _ => ?_⟩
      have hSame : tables vm₂ = tables vm :=
        tables_congr fun d => sameTable_of_eq (by rw [clearTable_directory hClear])
      refine (tables_set vm₂ _ ((or_mod_two _ _).mpr (Or.inr ?_))).trans (by rw [hSame])
      split <;> decide

/-- The same once the frame of the page has been drawn. -/
theorem mapPage_drawn_tables {physical v flags : Nat} {pmm : Table}
    (h : mapPage ptr physical v flags { vm with pmm := pmm } = some vm') :
    HasTable vm (pageOf v / 1024) ∧ vm'.pmm = pmm ∧ tables vm' = tables vm ∨
      ¬HasTable vm (pageOf v / 1024) ∧ vm'.pmm = (allocate 4096 pmm).2 ∧
        ((allocate 4096 pmm).1 ≠ 0 →
          tables vm' = fun d => d == pageOf v / 1024 || tables vm d) :=
  mapPage_tables h

/-- **One turn** of the mapping loop. -/
theorem turn_draws {v : Nat} (h : Offering boot vm.pmm.entries)
    (hSome : (allocate 4096 vm.pmm).1 ≠ 0)
    (hMap : mapPage ptr (allocate 4096 vm.pmm).1 v userFlags
      { vm with pmm := (allocate 4096 vm.pmm).2 } = some vm') : Draws [v] vm vm' := by
  rcases mapPage_drawn_tables hMap with ⟨hHas, hTables⟩ | ⟨hHas, hPmm, hTables⟩
  · have hCount : requests [v] (tables vm) = 1 := by
      rw [requests, tables, if_pos (decide_eq_true hHas), requests]
    refine ⟨fun _ => ?_, fun hNot => absurd ?_ hNot⟩
    · rw [hCount, provided, provided_present (decide_eq_true hHas)]
      exact hTables
    · rw [hCount]
      exact ⟨hSome, trivial⟩
  · have hCount : requests [v] (tables vm) = 2 := by
      rw [requests, if_neg (by simpa [tables] using hHas), requests]
    refine ⟨fun hServes => ?_, fun hNot => ?_⟩
    · rw [hCount] at hServes ⊢
      exact ⟨hPmm, hTables hServes.2.1⟩
    · rw [hCount] at hNot
      rw [hPmm]
      refine allocate_still_fails (h.allocate.fails ?_)
      by_contra hTable
      exact hNot ⟨hSome, hTable, trivial⟩

/-- **The mapping loop of `load_segment`.** -/
theorem mapPages_draws {vs : List Nat} {done : Bool} (h : Offering boot vm.pmm.entries)
    (hRun : mapPages ptr vs vm = some (done, vm')) :
    Draws vs vm vm' ∧ Drawn boot vm.pmm.entries vm'.pmm.entries := by
  induction vs generalizing vm with
  | nil =>
      cases hRun
      exact ⟨Draws.same rfl rfl, Drawn.refl h.intact⟩
  | cons v vs ih =>
      simp only [mapPages] at hRun
      have hFrame := allocate_drawn h.intact
      split at hRun
      · next hZero =>
          cases hRun
          refine ⟨⟨fun hServes => absurd hServes ?_, fun _ => ?_⟩, hFrame⟩
          · refine not_serves (h.fails hZero) ?_
            rw [requests]
            split <;> omega
          · exact allocate_still_fails (h.fails hZero)
      · next hSome =>
          obtain ⟨vm₁, hMap, hRest⟩ := Option.bind_eq_some_iff.mp hRun
          have hMapped := hFrame.trans (mapPage_drawn hFrame.intact hMap)
          obtain ⟨hLater, hDrawn⟩ := ih (h.drawn hMapped) hRest
          exact ⟨(turn_draws h hSome hMap).trans hLater, hMapped.trans hDrawn⟩

theorem copySegment_same {ph file : Nat} (h : copySegment ptr ph file vm = some vm') :
    vm'.pmm = vm.pmm ∧ vm'.pageDirectory = vm.pageDirectory := by
  simp only [copySegment, Option.bind_eq_bind, Option.bind_eq_some_iff] at h
  obtain ⟨offset, -, vaddr, -, filesz, -, vm₁, hCopy, memsz, -, filesz₁, -, hRest⟩ := h
  obtain ⟨m, -, rfl⟩ := Option.map_eq_some_iff.mp hCopy
  split at hRest
  · obtain ⟨vaddr₁, -, hFill⟩ := Option.bind_eq_some_iff.mp hRest
    obtain ⟨m', -, rfl⟩ := Option.map_eq_some_iff.mp hFill
    exact ⟨rfl, rfl⟩
  · cases hRest
    exact ⟨rfl, rfl⟩

/-- **`load_segment`** draws for its pages. -/
theorem loadSegment_draws {ph file vaddr memsz : Nat} (h : Offering boot vm.pmm.entries)
    (hVaddr : readMember ptr ph pVaddr vm = some vaddr)
    (hMemsz : readMember ptr ph pMemsz vm = some memsz)
    (hRun : loadSegment ptr ph file vm = some vm') :
    Draws (segmentPages vaddr memsz) vm vm' ∧ Drawn boot vm.pmm.entries vm'.pmm.entries := by
  unfold loadSegment at hRun
  simp only [hVaddr, hMemsz, Option.bind_eq_bind, Option.bind_some, Option.bind_eq_some_iff] at hRun
  obtain ⟨⟨done, vm₁⟩, hPages, hRest⟩ := hRun
  have hMapped := mapPages_draws h hPages
  cases done with
  | true =>
      obtain ⟨hPmm, hDirectory⟩ := copySegment_same hRest
      have hTrans := hMapped.1.trans (Draws.same hPmm hDirectory)
      rw [List.append_nil] at hTrans
      rw [hPmm]
      exact ⟨hTrans, hMapped.2⟩
  | false =>
      cases hRest
      exact hMapped

end Mapping

/-! ## The headers of the file -/

/-- The pages of `n` bytes, up to a page of them. -/
def endPages (a n : Nat) : List Nat := [pageOf a, pageOf (a + n - 1)]

theorem mem_endPages {a n j : Nat} (hn : n ≤ 4096) (hj : j < n) :
    pageOf (a + j) ∈ endPages a n := by
  simp only [endPages, List.mem_cons, List.not_mem_nil, or_false]
  unfold pageOf
  omega

/-- The pages of the header of a file and of its program headers. -/
def headerPages (m : Mem) (file : Nat) : List Nat :=
  endPages file 52 ++
    (List.range (member m file ePhnum)).flatMap fun i => endPages (headerAt m file i) 32

/-- The headers are below 4 GiB and in no page table, and loading the file maps none
of their pages and writes to none of them. -/
def HeadersKept (file : Nat) (vm : Vm) : Prop :=
  file + 52 ≤ 2 ^ 32 ∧
    (∀ i < member (view vm) file ePhnum, headerAt (view vm) file i + 32 ≤ 2 ^ 32) ∧
    (∀ p ∈ headerPages (view vm) file, ¬InTable vm (frameOf (entryWord vm p))) ∧
    FileSpares (headerPages (view vm) file) file vm

instance (file : Nat) (vm : Vm) : Decidable (HeadersKept file vm) :=
  inferInstanceAs (Decidable (_ ∧ _))

/-- A field is what the page tables show. -/
theorem readMember_view {base w : Nat} {field : Field}
    (hEnd : base + field.offset + field.size ≤ 2 ^ 32)
    (hRead : readMember pageWalk base field vm = some w) : w = member (view vm) base field := by
  refine @fetch_eq_load (through pageWalk vm) vm.mem (place vm) _ _ _ hRead
    fun x _ hHigh y hy => ?_
  have hWalk : pageWalk vm (x % 2 ^ 32) = some y := hy
  rw [Nat.mod_eq_of_lt (by omega), pageWalk_eq] at hWalk
  obtain ⟨-, hPlace⟩ := Option.ite_none_right_eq_some.mp hWalk
  cases hPlace
  rfl

/-- **A field on kept pages** is read as it was. -/
theorem readMember_kept {own : List Nat} (h : Kept own vm vm')
    (hOut : ∀ p ∈ own, ¬InTable vm (frameOf (entryWord vm p))) {base n w : Nat} {field : Field}
    (hn : n ≤ 4096) (hEnd : base + n ≤ 2 ^ 32) (hOwn : ∀ p ∈ endPages base n, p ∈ own)
    (hField : field.offset + field.size ≤ n)
    (hRead : readMember pageWalk base field vm' = some w) :
    w = member (view vm) base field := by
  refine readMember_view (by omega) (Eq.trans (fetch_congr fun k hk => ?_) hRead)
  have hRange : base + field.offset + k < 2 ^ 32 := by omega
  have hPage : pageOf (base + field.offset + k) ∈ own := by
    rw [Nat.add_assoc]
    exact hOwn _ (mem_endPages hn (by omega))
  have hSame := byteAt_kept h hRange hPage (hOut _ hPage)
  change byteAt vm ((base + field.offset + k) % 2 ^ 32) =
    byteAt vm' ((base + field.offset + k) % 2 ^ 32)
  rw [Nat.mod_eq_of_lt hRange, hSame]

section Headers

variable {file : Nat} {boot : List MemoryMap} {vm₀ : Vm}

theorem HeadersKept.header (h : HeadersKept file vm₀)
    (hKept : Kept (headerPages (view vm₀) file) vm₀ vm) {field : Field} {w : Nat}
    (hField : field.offset + field.size ≤ 52)
    (hRead : readMember pageWalk file field vm = some w) : w = member (view vm₀) file field :=
  readMember_kept hKept h.2.2.1 (by decide) h.1 (fun _ hp => List.mem_append_left _ hp) hField
    hRead

theorem HeadersKept.program (h : HeadersKept file vm₀)
    (hKept : Kept (headerPages (view vm₀) file) vm₀ vm) {field : Field} {i w : Nat}
    (hi : i < member (view vm₀) file ePhnum) (hField : field.offset + field.size ≤ 32)
    (hRead : readMember pageWalk (headerAt (view vm₀) file i) field vm = some w) :
    w = member (view vm₀) (headerAt (view vm₀) file i) field := by
  refine readMember_kept hKept h.2.2.1 (by decide) (h.2.1 i hi) (fun p hp => ?_) hField hRead
  exact List.mem_append_right _ (List.mem_flatMap.mpr ⟨i, List.mem_range.mpr hi, hp⟩)

/-! ## The loader -/

/-- **The loop of `elf_load_exec`** from header `i` on. -/
theorem loadSegments_draws (hHeaders : HeadersKept file vm₀) {n i : Nat} (hCount : i + n = 2 ^ 16)
    (hKept : Kept (headerPages (view vm₀) file) vm₀ vm)
    (hOk : HeadersSpare (headerPages (view vm₀) file) file file
      (file + member (view vm₀) file ePhoff) (List.range' i n) vm)
    (h : Offering boot vm.pmm.entries)
    (hRun : loadSegments pageWalk file file (file + member (view vm₀) file ePhoff)
      (List.range' i n) vm = some vm') :
    Draws ((segmentsOf (view vm₀) file
      (List.range' i (member (view vm₀) file ePhnum - i))).flatMap Segment.pages) vm vm' := by
  have hSmall := ElfSegments.phnum_lt (view vm₀) file
  induction n generalizing i vm with
  | zero =>
      cases hRun
      rw [show member (view vm₀) file ePhnum - i = 0 by omega]
      exact Draws.same rfl rfl
  | succ n ih =>
      rw [List.range'_succ] at hOk hRun
      simp only [loadSegments, Option.bind_eq_bind] at hRun
      obtain ⟨phnum, hPhnum, hRun⟩ := Option.bind_eq_some_iff.mp hRun
      have hPhnumEq := hHeaders.header hKept (by decide) hPhnum
      split at hRun
      · next hi =>
          obtain ⟨phsize, hPhsize, hRun⟩ := Option.bind_eq_some_iff.mp hRun
          obtain ⟨type, hType, hRun⟩ := Option.bind_eq_some_iff.mp hRun
          have hOkHere := hOk phnum hPhnum hi phsize hPhsize type hType
          have hPhsizeEq := hHeaders.header hKept (by decide) hPhsize
          subst hPhnumEq hPhsizeEq
          have hTypeEq := hHeaders.program hKept hi (by decide) hType
          rw [show member (view vm₀) file ePhnum - i = member (view vm₀) file ePhnum - (i + 1) + 1
            by omega, List.range'_succ, ElfSegments.segmentsOf_cons]
          split at hRun
          · next hSkip =>
              rw [if_pos hSkip] at hOkHere
              rw [if_neg (hTypeEq ▸ hSkip)]
              exact ih (by omega) hKept hOkHere h hRun
          · next hLoad =>
              rw [if_neg hLoad] at hOkHere
              rw [if_pos (hTypeEq ▸ not_not.mp hLoad), List.flatMap_cons]
              obtain ⟨vm₁, hSegment, hRest⟩ := Option.bind_eq_some_iff.mp hRun
              have hLoaded := loadSegment_spares hKept.identity hOkHere.1 hSegment
              obtain ⟨vaddr, hVaddr, hTail⟩ := Option.bind_eq_some_iff.mp hSegment
              obtain ⟨memsz, hMemsz, -⟩ := Option.bind_eq_some_iff.mp hTail
              obtain ⟨hDraws, hDrawn⟩ := loadSegment_draws h hVaddr hMemsz hSegment
              have hVaddrEq := hHeaders.program hKept hi (by decide) hVaddr
              have hMemszEq := hHeaders.program hKept hi (by decide) hMemsz
              subst hVaddrEq hMemszEq
              exact hDraws.trans (ih (by omega) (hKept.trans hLoaded)
                (hOkHere.2 vm₁ hSegment) (h.drawn hDrawn) hRest)
      · next hi =>
          cases hRun
          rw [show member (view vm₀) file ePhnum - i = 0 by omega]
          exact Draws.same rfl rfl

/-- The calls of `allocate` that loading a file takes. -/
def fileRequests (file : Nat) (vm : Vm) : Nat := requests (filePages (view vm) file) (tables vm)

/-- **`elf_load_file` of an executable** that keeps its headers returns the entry the
header names and draws for the pages of its segments. -/
theorem elfLoadFile_draws {register entry : Nat} (hIdentity : Identity vm)
    (h : Offering boot vm.pmm.entries) (hHeaders : HeadersKept file vm)
    (hAccepted : checkElfSupported pageWalk file vm = some (.ok ()))
    (hExec : readMember pageWalk file eType vm = some etExec)
    (hRun : elfLoadFile pageWalk register file vm = some (entry, vm')) :
    entry = member (view vm) file eEntry ∧ Draws (filePages (view vm) file) vm vm' := by
  have hSelf : Kept (headerPages (view vm) file) vm vm := Kept.refl hIdentity
  have hLoaded := elfLoadFile_spares hIdentity hHeaders.2.2.2 hRun
  have hOk := hHeaders.2.2.2
  unfold FileSpares at hOk
  rw [hAccepted] at hOk
  unfold elfLoadFile at hRun
  rw [hAccepted, Option.bind_some] at hRun
  simp only at hRun
  rw [hExec, Option.bind_some, if_pos rfl] at hRun
  simp only [elfLoadExec, Option.bind_eq_bind, Option.bind_eq_some_iff] at hRun
  -- the indices are never looked at
  generalize hIndices : List.range (2 ^ 16) = is at hOk hRun
  obtain ⟨phoff, hPhoff, vm₁, hLoop, entry₁, hEntry, hEq⟩ := hRun
  cases hEq
  have hSpares := hOk etExec hExec rfl phoff hPhoff
  have hPhoffEq := hHeaders.header hSelf (by decide) hPhoff
  subst hPhoffEq
  refine ⟨hHeaders.header hLoaded (by decide) hEntry, ?_⟩
  rw [List.range_eq_range'] at hIndices
  rw [← hIndices] at hSpares hLoop
  rw [filePages, segments, List.range_eq_range']
  exact loadSegments_draws hHeaders (Nat.zero_add _) hSelf hSpares h hLoop

end Headers

end MiniKernel.Ports.ElfDraws

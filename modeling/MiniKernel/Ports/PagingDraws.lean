import MiniKernel.Ports.Paging
import MiniKernel.Ports.PmmBestFit
import MiniKernel.Ports.PmmCoverage

/-!
# What the page calls draw

`map_page` takes a frame for a missing table, `allocate_page` and
`allocate_pages_contig` take a frame for each page, and none of them gives a frame
back.  `Drawn` is what any number of such steps leaves of the memory map: nothing
has become usable, and the entries in use are still there.  `Withheld` is an entry
in use that was usable when the steps began.

`free_page` makes one entry usable at most, so of two entries that are withheld one
stays.
-/

namespace MiniKernel.Ports.PagingDraws

open MiniKernel.Verified.Extents
open MiniKernel.Ports.Pmm
open MiniKernel.Ports.PmmOwnership (extentOf)
open MiniKernel.Ports.PmmCoverage
open MiniKernel.Ports.Paging

/-- The map offers the byte. -/
def Usable (es : List MemoryMap) (x : Nat) : Prop :=
  ∃ e ∈ es, e.type = 1 ∧ (extentOf e).Has x

instance (es : List MemoryMap) (x : Nat) : Decidable (Usable es x) := by
  unfold Usable
  infer_instance

/-- An entry in use that begins with a byte the first map offers. -/
structure Withheld (es es' : List MemoryMap) (e : MemoryMap) : Prop where
  mem : e ∈ es'
  used : e.type = 2
  usable : Usable es e.base

/-- What `allocate` leaves of a map, however often it is called. -/
structure Drawn (boot es es' : List MemoryMap) : Prop where
  intact : Intact boot es'
  usable : ∀ x, Usable es' x → Usable es x
  used : ∀ e ∈ es, e.type = 2 → e ∈ es'

variable {boot es es' es'' : List MemoryMap} {e d : MemoryMap}

/-! ## The memory map -/

theorem Drawn.refl (h : Intact boot es) : Drawn boot es es where
  intact := h
  usable _ hx := hx
  used _ he _ := he

theorem Drawn.trans (h : Drawn boot es es') (h' : Drawn boot es' es'') : Drawn boot es es'' where
  intact := h'.intact
  usable x hx := h.usable x (h'.usable x hx)
  used e he hType := h'.used e (h.used e he hType) hType

theorem Withheld.drawn (h : Withheld es es' e) (hDrawn : Drawn boot es' es'') :
    Withheld es es'' e :=
  ⟨hDrawn.used e h.mem h.used, h.used, h.usable⟩

theorem Withheld.earlier (h : Withheld es' es'' e) (hDrawn : Drawn boot es es') :
    Withheld es es'' e :=
  ⟨h.mem, h.used, hDrawn.usable _ h.usable⟩

/-- The bytes of an entry in use are not offered. -/
theorem not_usable (h : Intact boot es) (he : e ∈ es) (hType : e.type = 2) :
    ¬Usable es e.base := by
  rintro ⟨d, hd, hFree, hHas⟩
  have hLength := h.nonempty e he
  rcases h.apart.eq_or_apart he hd with rfl | hApart
  · omega
  · exact hApart e.base ⟨Nat.le_refl _, by simp only [extentOf]; omega⟩ hHas

/-- What is withheld is missed. -/
theorem Withheld.missing (h : Withheld es es' e) (hIntact : Intact boot es') :
    Usable es e.base ∧ ¬Usable es' e.base :=
  ⟨h.usable, not_usable hIntact h.mem h.used⟩

theorem usable_replace {pre mid mid' post : List MemoryMap} {x : Nat}
    (hMid : Usable mid' x → Usable mid x) (hx : Usable (pre ++ mid' ++ post) x) :
    Usable (pre ++ mid ++ post) x := by
  obtain ⟨e, he, hType, hHas⟩ := hx
  simp only [List.mem_append] at he
  rcases he with (he | he) | he
  · exact ⟨e, by simp [he], hType, hHas⟩
  · obtain ⟨d, hd, hRest⟩ := hMid ⟨e, he, hType, hHas⟩
    exact ⟨d, by simp [hd], hRest⟩
  · exact ⟨e, by simp [he], hType, hHas⟩

/-- **`allocate` draws.** -/
theorem allocate_drawn {t : Table} (h : Intact boot t.entries) :
    Drawn boot t.entries (allocate 4096 t).2.entries := by
  have hIntact := h.allocate (by decide : 0 < 4096) (allocate_cases 4096 t)
  rcases allocate_carves 4096 t with ⟨-, -, hSame⟩ | ⟨-, pre, e, post, hBest, -, hCarved⟩
  · rw [hSame]
    exact Drawn.refl h
  · rw [hCarved] at hIntact ⊢
    obtain ⟨hSplit, ⟨-, hFit, hType⟩, -, -⟩ := hBest
    have he : e ∈ t.entries := by rw [hSplit]; simp
    have hRecut := recut_pieces (by decide : 0 < 4096) hFit (h.noWrap e he)
    refine ⟨hIntact, fun x hx => ?_, fun d hd hUsed => ?_⟩
    · rw [hSplit, List.append_cons pre e post] at *
      refine usable_replace (fun hPieces => ?_) hx
      obtain ⟨d, hd, -, hHas⟩ := hPieces
      exact ⟨e, List.mem_singleton_self e, hType,
        covers_singleton.mp ((hRecut.covers x).mp ⟨d, hd, hHas⟩)⟩
    · rw [hSplit] at hd
      rcases List.mem_append.mp hd with hd | hd
      · simp [hd]
      · rcases List.mem_cons.mp hd with rfl | hd
        · omega
        · simp [hd]

/-- **A call that does not fail** withholds an entry. -/
theorem allocate_withholds {t : Table} (hFits : ¬Fails 4096 t.entries) :
    ∃ e, Withheld t.entries (allocate 4096 t).2.entries e := by
  rcases allocate_carves 4096 t with ⟨hFails, -⟩ | ⟨-, pre, e, post, hBest, -, hCarved⟩
  · exact absurd hFails hFits
  · obtain ⟨-, hFit, hType⟩ := hBest.candidate
    refine ⟨e.used 4096, ?_, rfl, e, hBest.mem, hType, Nat.le_refl _, ?_⟩
    · rw [hCarved]
      simp [MemoryMap.pieces]
    · simp only [extentOf, MemoryMap.used]
      omega

/-- A call that fails leaves the map as it is. -/
theorem allocate_fails {t : Table} (hFails : Fails 4096 t.entries) :
    (allocate 4096 t).1 = 0 ∧ (allocate 4096 t).2.entries = t.entries := by
  rcases allocate_carves 4096 t with ⟨-, hZero, hSame⟩ | ⟨hFits, -⟩
  · exact ⟨hZero, hSame⟩
  · exact absurd hFails hFits

/-- A call that answers does not fail. -/
theorem not_fails {t : Table} (hSome : (allocate 4096 t).1 ≠ 0) : ¬Fails 4096 t.entries :=
  fun hFails => hSome (allocate_fails hFails).1

/-- **`free` makes one entry usable at most.** -/
theorem Freed.one_stays {p : Nat} (hFreed : Freed p es es') (he : e ∈ es) (hd : d ∈ es)
    (heType : e.type = 2) (hdType : d.type = 2) (hne : e ≠ d) : e ∈ es' ∨ d ∈ es' := by
  refine hFreed.closure (P := fun es' => e ∈ es' ∨ d ∈ es') (fun _ => Or.inl he) ?_ ?_
  · rintro pre f post rfl - -
    have hOther : ∀ x ∈ pre ++ f :: post, x ≠ f → x ∈ pre ++ f.usable :: post := by
      intro x hx hxf
      rcases List.mem_append.mp hx with hx | hx
      · exact List.mem_append_left _ hx
      · exact List.mem_append_right _
          (List.mem_cons_of_mem _ ((List.mem_cons.mp hx).resolve_left hxf))
    by_cases hef : e = f
    · exact Or.inr (hOther d hd fun hdf => hne (hef.trans hdf.symm))
    · exact Or.inl (hOther e he hef)
  · intro pre l r post hGlue
    have hOther : ∀ x, x.type = 2 → x ∈ pre ++ l :: r :: post → x ∈ pre ++ l.join r :: post := by
      intro x hxType hx
      have hl := hGlue.1
      have hr := hGlue.2.1
      simp only [List.mem_append, List.mem_cons] at hx ⊢
      rcases hx with hx | rfl | rfl | hx
      · exact Or.inl hx
      · omega
      · omega
      · exact Or.inr (Or.inr hx)
    exact Or.imp (hOther e heType) (hOther d hdType)

/-! ## The page calls -/

section Calls

variable {ptr : Vm → Nat → Option Nat} {vm vm' : Vm}

theorem writeWord_pmm {a v : Nat} (h : writeWord ptr vm a v = some vm') : vm'.pmm = vm.pmm := by
  obtain ⟨p, -, rfl⟩ := Option.map_eq_some_iff.mp h
  rfl

theorem clearTable_pmm {table : Nat} {ks : List Nat}
    (h : clearTable ptr table ks vm = some vm') : vm'.pmm = vm.pmm := by
  induction ks generalizing vm with
  | nil =>
      cases h
      rfl
  | cons k ks ih =>
      obtain ⟨vm₁, hWrite, hRest⟩ := Option.bind_eq_some_iff.mp h
      exact (ih hRest).trans (writeWord_pmm hWrite)

/-- `map_page` calls `allocate` once at most. -/
theorem mapPage_pmm {physical virtual flags : Nat}
    (h : mapPage ptr physical virtual flags vm = some vm') :
    vm'.pmm = vm.pmm ∨ vm'.pmm = (allocate 4096 vm.pmm).2 := by
  obtain ⟨⟨ok, vm₁⟩, hTable, hRest⟩ := Option.bind_eq_some_iff.mp h
  have hEntry : vm'.pmm = vm₁.pmm := by
    cases ok with
    | true =>
        obtain ⟨p, -, rfl⟩ := Option.map_eq_some_iff.mp hRest
        rfl
    | false =>
        cases hRest
        rfl
  rw [hEntry]
  unfold ensureTable at hTable
  split at hTable
  · simp only at hTable
    split at hTable
    · cases hTable
      exact Or.inr rfl
    · obtain ⟨vm₂, hClear, hEq⟩ := Option.map_eq_some_iff.mp hTable
      cases hEq
      exact Or.inr (clearTable_pmm hClear)
  · cases hTable
    exact Or.inl rfl

theorem mapPage_drawn {physical virtual flags : Nat} (h : Intact boot vm.pmm.entries)
    (hMap : mapPage ptr physical virtual flags vm = some vm') :
    Drawn boot vm.pmm.entries vm'.pmm.entries := by
  rcases mapPage_pmm hMap with hSame | hDrawn
  · rw [hSame]
    exact Drawn.refl h
  · rw [hDrawn]
    exact allocate_drawn h

/-- The loop of `allocate_pages_contig` draws. -/
theorem mapContig_drawn {start flag : Nat} {ks : List Nat} {ok : Bool}
    (h : Intact boot vm.pmm.entries) (hRun : mapContig ptr start flag ks vm = some (ok, vm')) :
    Drawn boot vm.pmm.entries vm'.pmm.entries := by
  induction ks generalizing vm with
  | nil =>
      cases hRun
      exact Drawn.refl h
  | cons k ks ih =>
      have hFrame := allocate_drawn h
      simp only [mapContig] at hRun
      split at hRun
      · cases hRun
        exact hFrame
      · obtain ⟨vm₁, hMap, hRest⟩ := Option.bind_eq_some_iff.mp hRun
        have hMapped := mapPage_drawn hFrame.intact hMap
        exact hFrame.trans (hMapped.trans (ih hMapped.intact hRest))

/-- **A range whose first page has a frame** withholds this frame, also if the range
is not finished. -/
theorem mapContig_withholds {start flag k : Nat} {ks : List Nat} {ok : Bool}
    (h : Intact boot vm.pmm.entries) (hFits : ¬Fails 4096 vm.pmm.entries)
    (hRun : mapContig ptr start flag (k :: ks) vm = some (ok, vm')) :
    ∃ e, Withheld vm.pmm.entries vm'.pmm.entries e := by
  obtain ⟨e, hHeld⟩ := allocate_withholds hFits
  have hFrame := allocate_drawn h
  simp only [mapContig] at hRun
  split at hRun
  · cases hRun
    exact ⟨e, hHeld⟩
  · obtain ⟨vm₁, hMap, hRest⟩ := Option.bind_eq_some_iff.mp hRun
    have hMapped := mapPage_drawn hFrame.intact hMap
    exact ⟨e, (hHeld.drawn hMapped).drawn (mapContig_drawn hMapped.intact hRest)⟩

/-- **A finished range** of two pages or more withholds two frames. -/
theorem mapContig_two {start flag k l : Nat} {ks : List Nat} (h : Intact boot vm.pmm.entries)
    (hRun : mapContig ptr start flag (k :: l :: ks) vm = some (true, vm')) :
    ∃ e d, e ≠ d ∧ Withheld vm.pmm.entries vm'.pmm.entries e ∧
      Withheld vm.pmm.entries vm'.pmm.entries d := by
  have hFrame := allocate_drawn h
  rw [mapContig] at hRun
  split at hRun
  · cases hRun
  · next hSome =>
      obtain ⟨e, hFirst⟩ := allocate_withholds (not_fails hSome)
      obtain ⟨vm₁, hMap, hRest⟩ := Option.bind_eq_some_iff.mp hRun
      have hMapped := mapPage_drawn hFrame.intact hMap
      have hLater := mapContig_drawn hMapped.intact hRest
      have hEarlier := hFrame.trans hMapped
      have hSecond : ¬Fails 4096 vm₁.pmm.entries := by
        refine not_fails fun hZero => ?_
        simp only [mapContig, if_pos hZero] at hRest
        cases hRest
      obtain ⟨d, hNext⟩ := mapContig_withholds hMapped.intact hSecond hRest
      refine ⟨e, d, ?_, (hFirst.drawn hMapped).drawn hLater, hNext.earlier hEarlier⟩
      rintro rfl
      -- the first frame was in use when the second was drawn
      exact ((hFirst.drawn hMapped).missing hMapped.intact).2 hNext.usable

theorem takeVirtual_pmm (vm : Vm) : (takeVirtual vm).2.pmm = vm.pmm := (takeVirtual_frame vm).1

/-- `allocate_page` draws, a frame for the page first. -/
theorem allocatePage_drawn {flag v : Nat} (h : Intact boot vm.pmm.entries)
    (hCall : allocatePage ptr flag vm = some (v, vm')) :
    Drawn boot (allocate 4096 vm.pmm).2.entries vm'.pmm.entries := by
  have hFrame := allocate_drawn h
  unfold allocatePage at hCall
  simp only at hCall
  split at hCall
  · cases hCall
    exact Drawn.refl hFrame.intact
  · obtain ⟨vm₁, hMap, hEq⟩ := Option.map_eq_some_iff.mp hCall
    cases hEq
    have hPmm := takeVirtual_pmm { vm with pmm := (allocate 4096 vm.pmm).2 }
    have hMapped := mapPage_drawn (by rw [hPmm]; exact hFrame.intact) hMap
    rwa [hPmm] at hMapped

/-- The loop behind `allocate_pages_contig`, after it has moved `next_virtual`. -/
theorem allocatePagesContig_loop {count : Int} {flag v : Nat}
    (hCall : allocatePagesContig ptr count flag vm = some (v, vm')) :
    ∃ vm₀ ok, vm₀.pmm = vm.pmm ∧ vm₀.mem = vm.mem ∧ vm₀.pageDirectory = vm.pageDirectory ∧
      mapContig ptr vm.nextVirtual (defaultFlags flag) (List.range count.toNat) vm₀ =
        some (ok, vm') ∧ v = if ok then vm.nextVirtual else 0 := by
  obtain ⟨⟨ok, vm₁⟩, hLoop, hEq⟩ := Option.map_eq_some_iff.mp hCall
  cases hEq
  refine ⟨_, ok, ?_, ?_, ?_, hLoop, rfl⟩
  all_goals rfl

/-- `free_page` frees one address at most. -/
theorem freePage_pmm {addr : Nat} (h : freePage ptr addr vm = some vm') :
    vm'.pmm = vm.pmm ∨ ∃ p, vm'.pmm = free p vm.pmm := by
  unfold freePage at h
  simp only at h
  split at h
  · cases h
    exact Or.inl rfl
  · obtain ⟨word, -, hRest⟩ := Option.bind_eq_some_iff.mp h
    split at hRest
    · cases hRest
      exact Or.inl rfl
    · exact Or.inr ⟨_, writeWord_pmm hRest⟩

/-- **Of two frames withheld** `free_page` leaves one. -/
theorem freePage_one_stays {addr : Nat} {es : List MemoryMap} {e d : MemoryMap}
    (h : Intact boot vm.pmm.entries) (hCall : freePage ptr addr vm = some vm')
    (he : Withheld es vm.pmm.entries e) (hd : Withheld es vm.pmm.entries d) (hne : e ≠ d) :
    Intact boot vm'.pmm.entries ∧ ∃ f, Withheld es vm'.pmm.entries f := by
  rcases freePage_pmm hCall with hSame | ⟨p, hFree⟩
  · rw [hSame]
    exact ⟨h, e, he⟩
  · rw [hFree]
    have hFreed := free_cases p vm.pmm
    refine ⟨h.free hFreed, ?_⟩
    rcases Freed.one_stays hFreed he.mem hd.mem he.used hd.used hne with hStays | hStays
    · exact ⟨e, hStays, he.used, he.usable⟩
    · exact ⟨d, hStays, hd.used, hd.usable⟩

end Calls

end MiniKernel.Ports.PagingDraws

import MiniKernel.Ports.ConsoleNumbers
import MiniKernel.Ports.KmallocRuns
import MiniKernel.Ports.Pmm

/-!
# Reports on the screen

A report is a sequence of `print_string`, `print_number` and `print_hex` calls
on one cursor.  Whatever it prints, it shows what a single `print_string` of the
whole text would show (`calls_alike`).  `inspect` and `search` of `pmm.c` are
such reports, of the blocks of the heap and of the entries of the memory map.

`search` has a cursor of its own and goes down one row without a new line.
-/

namespace MiniKernel.Ports.ConsoleReports

open MiniKernel.Verified.Links
open MiniKernel.Verified.Trace
open MiniKernel.Verified.Windows
open MiniKernel.Ports.Console
open MiniKernel.Ports.Console.Terminal
open MiniKernel.Ports.ConsoleText
open MiniKernel.Ports.ConsoleNumbers

/-- The text that a call prints. -/
def text : Call → List Nat
  | .printString str => str
  | .printNumber n => decimal n
  | .printHex n => hexadecimal n

/-- One call after the other. -/
def runCalls (calls : List Call) (s : Terminal) : Terminal := runAll (calls.flatMap Call.ops) s

/-- The characters of a string literal. -/
def chars (str : String) : List Nat := str.toList.map Char.toNat

variable {s s' : Terminal} {sheet : Sheet Cell}

theorem typeText_append (sheet : Sheet Cell) (str str' : List Nat) :
    typeText sheet (str ++ str') = typeText (typeText sheet str) str' := List.foldl_append

theorem runCalls_cons (c : Call) (calls : List Call) (s : Terminal) :
    runCalls (c :: calls) s = runCalls calls (runAll c.ops s) := by
  unfold runCalls
  rw [List.flatMap_cons, runAll_append]

theorem runCalls_append (calls calls' : List Call) (s : Terminal) :
    runCalls (calls ++ calls') s = runCalls calls' (runCalls calls s) := by
  unfold runCalls
  rw [List.flatMap_append, runAll_append]

/-- A call types its text. -/
theorem call_displays (h : Displays s sheet) (c : Call) :
    Displays (runAll c.ops s) (typeText sheet (text c)) ∧ Framed s (runAll c.ops s) := by
  cases c with
  | printString str => exact h.printString str
  | printNumber n =>
      show Displays (runAll (printNumber n) s) _ ∧ Framed s (runAll (printNumber n) s)
      rw [printNumber_eq]
      exact near_printDigits h.near (newline_notMem_decimal n)
  | printHex n =>
      show Displays (runAll (printHex n) s) _ ∧ Framed s (runAll (printHex n) s)
      rw [printHex_eq]
      exact near_printDigits h.near (newline_notMem_hexadecimal n)

theorem calls_display (calls : List Call) : ∀ {s : Terminal} {sheet : Sheet Cell},
    Displays s sheet → Displays (runCalls calls s) (typeText sheet (calls.flatMap text)) ∧
      Framed s (runCalls calls s) := by
  induction calls with
  | nil => exact fun h => ⟨h, Framed.refl _⟩
  | cons c calls ih =>
      intro s sheet h
      obtain ⟨hFirst, hFramed⟩ := call_displays h c
      obtain ⟨hRest, hFramed'⟩ := ih hFirst
      rw [runCalls_cons, List.flatMap_cons, typeText_append]
      exact ⟨hRest, hFramed.trans hFramed'⟩

/-- **Calls one after another** show what one `print_string` of the whole text shows. -/
theorem calls_alike (hOn : OnScreen s.i) (calls : List Call) :
    Alike (runCalls calls s) (runAll (printString (calls.flatMap text)) s) := by
  have hDisplays := displays_sheetOf hOn
  obtain ⟨hCalls, hFramed⟩ := calls_display calls hDisplays
  obtain ⟨hString, hFramed'⟩ := hDisplays.printString (calls.flatMap text)
  exact hCalls.unique hString hFramed hFramed'

/-! ## `inspect` -/

/-- One turn of the loop of `inspect`. -/
def blockReport (m : Verified.ByteMemory.Mem) (cur : Nat) : List Call :=
  [ .printString (chars "\nBlock: "), .printHex cur,
    .printString (chars " size="), .printNumber (Kmalloc.blockAt m cur).size,
    .printString (chars " type="), .printNumber (Kmalloc.blockAt m cur).type ]

/-- `inspect`. -/
def inspect (h : Kmalloc.Heap) (s : Terminal) : Option Terminal :=
  walk (fun _ => h.next) (fun s cur => runCalls (blockReport h.mem cur) s) Kmalloc.addresses
    h.heapHead s

/-- The text about one block. -/
def blockText (m : Verified.ByteMemory.Mem) (cur : Nat) : List Nat :=
  chars "\nBlock: " ++ hexadecimal cur ++ chars " size=" ++ decimal (Kmalloc.blockAt m cur).size ++
    chars " type=" ++ decimal (Kmalloc.blockAt m cur).type

theorem blockReport_text (m : Verified.ByteMemory.Mem) (cur : Nat) :
    (blockReport m cur).flatMap text = blockText m cur := by
  simp [blockReport, blockText, text]

theorem foldl_runCalls (report : Nat → List Call) (blocks : List Nat) : ∀ s : Terminal,
    blocks.foldl (fun s b => runCalls (report b) s) s = runCalls (blocks.flatMap report) s := by
  induction blocks with
  | nil => exact fun _ => rfl
  | cons b blocks ih =>
      intro s
      rw [List.foldl_cons, ih, List.flatMap_cons, runCalls_append]

/-- One turn of the loop of `search`, up to `i = i + 80`. -/
def entryReport (e : Pmm.MemoryMap) : List Call :=
  [ .printString (chars "base: "), .printHex (e.base % 2 ^ 32),
    .printString (chars "Size: "), .printNumber (e.length % 2 ^ 32),
    .printString (chars "Type: "), .printNumber e.type ]

/-- `search(i, j)`; the global `i` and `j` are not the ones it moves. -/
def search (t : Pmm.Table) (i j : Int) (s : Terminal) : Terminal :=
  let header := [.printString (chars "Entries: "), .printNumber t.entry]
  let last := (List.range t.entry).foldl
    (fun s k => (runCalls (entryReport (t.map k)) s).moveBy 80)
    ((runCalls header { s with i := i, j := j }).moveBy 80)
  { last with i := s.i, j := s.j }

/-- The row below, in the same column. -/
def down (sheet : Sheet Cell) : Sheet Cell := { sheet with pen := sheet.pen + 80 }

/-- The text about one entry. -/
def entryText (e : Pmm.MemoryMap) : List Nat :=
  chars "base: " ++ hexadecimal (e.base % 2 ^ 32) ++ chars "Size: " ++ decimal (e.length % 2 ^ 32) ++
    chars "Type: " ++ decimal e.type

/-- The sheet with the whole report on it. -/
def listing (sheet : Sheet Cell) (entries : List Pmm.MemoryMap) : Sheet Cell :=
  entries.foldl (fun sheet e => typeText (down sheet) (entryText e))
    (typeText sheet (chars "Entries: " ++ decimal entries.length))

/-- **One row down**: the window follows at the next character. -/
theorem displays_down (h : Displays s sheet) :
    Displays (Op.addLineIfNeeded.run (s.moveBy 80)) (down sheet) ∧
      Framed s (Op.addLineIfNeeded.run (s.moveBy 80)) := by
  obtain ⟨hOnLow, hOnHigh⟩ := h.onScreen
  obtain ⟨hShows, hCursor, hLow, -, hLeast⟩ := h.near
  have hFoot : sheet.pen < 80 * (top 80 25 sheet.pen + 25) := pen_lt_foot (by decide)
  generalize top 80 25 sheet.pen = t at *
  have hNext : (s.moveBy 80).i = s.i + 80 := int32_eq (by omega) (by omega)
  have hPen : (down sheet).pen = sheet.pen + 80 := rfl
  by_cases hFull : 2000 ≤ s.i + 80
  · -- the screen is scrolled, and the cursor is back in its row
    have hRun : Op.addLineIfNeeded.run (s.moveBy 80) = { (s.moveBy 80).scroll with i := s.i } := by
      refine (if_pos (by omega)).trans ((if_pos ?_).trans ?_)
      · show 2000 ≤ (s.moveBy 80).scroll.i
        rw [scroll_i]
        omega
      · rw [scroll_i, hNext, int32_eq (by omega) (by omega), Int.add_sub_cancel]
    have hTop : top 80 25 (down sheet).pen = t + 1 :=
      top_eq (by decide) (by omega) (Or.inr (by omega))
    unfold Displays
    rw [hRun, hTop]
    refine ⟨⟨(hShows.scroll fun k hk => ?_).moved rfl, ?_, ?_, ?_, ?_⟩, fun x hx => ?_,
      fun x hx => Or.inl hx⟩
    · unfold view
      simp only
      rw [scroll_screen]
      by_cases hIn : k + 80 < 80 * 25
      · rw [if_pos (by omega), if_pos hIn]
        rfl
      · rw [if_neg (by omega), if_pos (by omega), if_neg hIn]
    · simp only
      omega
    · omega
    · omega
    · omega
    · unfold OnScreen at hx
      simp only
      rw [scroll_screen, if_neg (by omega), if_neg (by omega)]
      rfl
  · have hTop : top 80 25 (down sheet).pen = t :=
      top_eq (by decide) (by omega) (hLeast.imp_right fun hLe => by omega)
    rw [addLineIfNeeded_onScreen (by omega)]
    unfold Displays
    rw [hTop]
    refine ⟨⟨hShows.moved rfl, ?_, ?_, ?_, ?_⟩, fun _ _ => rfl, fun _ hx => Or.inl hx⟩
    · omega
    · omega
    · omega
    · omega

/-- Printing a text tests the cursor first. -/
theorem printString_settles (c : Nat) (str : List Nat) (hLine : c ≠ '\n'.toNat) (s : Terminal)
    (hOn : (Op.addLineIfNeeded.run s).i < 2000) :
    runAll (printString (c :: str)) (Op.addLineIfNeeded.run s) =
      runAll (printString (c :: str)) s := by
  have hTurn : printStringTurn c = .addLineIfNeeded ::
      [.print c, .advance, .count, .addLineIfNeeded] := if_neg hLine
  have hSame : Op.addLineIfNeeded.run (Op.addLineIfNeeded.run s) = Op.addLineIfNeeded.run s :=
    addLineIfNeeded_onScreen hOn
  unfold printString
  rw [List.flatMap_cons, hTurn]
  simp only [List.cons_append, runAll, List.foldl_cons, hSame]

/-- One turn of the loop, from the row above. -/
theorem entry_displays (h : Displays s sheet) (e : Pmm.MemoryMap) :
    Displays (runCalls (entryReport e) (s.moveBy 80)) (typeText (down sheet) (entryText e)) ∧
      Framed s (runCalls (entryReport e) (s.moveBy 80)) := by
  obtain ⟨hDown, hFramed⟩ := displays_down h
  have hText : (entryReport e).flatMap text = entryText e := by
    simp [entryReport, entryText, text]
  have hSettles : runCalls (entryReport e) (Op.addLineIfNeeded.run (s.moveBy 80)) =
      runCalls (entryReport e) (s.moveBy 80) := by
    have hFirst : runAll (Call.printString (chars "base: ")).ops
        (Op.addLineIfNeeded.run (s.moveBy 80)) =
          runAll (Call.printString (chars "base: ")).ops (s.moveBy 80) :=
      printString_settles 'b'.toNat (chars "ase: ") (by decide) (s.moveBy 80) hDown.onScreen.2
    simp only [entryReport, runCalls_cons, hFirst]
  obtain ⟨hReport, hFramed'⟩ := calls_display (entryReport e) hDown
  rw [hText, hSettles] at hReport
  rw [hSettles] at hFramed'
  exact ⟨hReport, hFramed.trans hFramed'⟩

/-- **`search` shows the memory map.**  From any cursor on the screen the window
is where the last character of the report has brought it, one row for each
entry in the same column as the end of the one before, and only cells of the
screen are written.  Base and length are shown modulo 4 GiB. -/
theorem search_shows (t : Pmm.Table) {i : Int} (j : Int) (s : Terminal) (hOn : OnScreen i) :
    ∃ s', Displays s' (listing (sheetOf { s with i := i, j := j }) t.entries) ∧
      (search t i j s).screen = s'.screen ∧ (search t i j s).i = s.i ∧
        Framed s (search t i j s) := by
  have hLoop : ∀ (ks : List Nat) (s : Terminal) (sheet : Sheet Cell), Displays s sheet →
      ∃ s', Displays s' (ks.foldl (fun sheet k => typeText (down sheet) (entryText (t.map k)))
          sheet) ∧ Framed s s' ∧
        ks.foldl (fun s k => (runCalls (entryReport (t.map k)) s).moveBy 80) (s.moveBy 80) =
          s'.moveBy 80 := by
    intro ks
    induction ks with
    | nil => exact fun s sheet h => ⟨s, h, Framed.refl s, rfl⟩
    | cons k ks ih =>
        intro s sheet h
        obtain ⟨hEntry, hFramed⟩ := entry_displays h (t.map k)
        obtain ⟨s', hRest, hFramed', hRun⟩ := ih _ _ hEntry
        exact ⟨s', hRest, hFramed.trans hFramed', hRun⟩
  have hStart : Displays { s with i := i, j := j } (sheetOf { s with i := i, j := j }) :=
    displays_sheetOf hOn
  obtain ⟨hHeader, hFramed⟩ := calls_display
    [.printString (chars "Entries: "), .printNumber t.entry] hStart
  obtain ⟨s', hRest, hFramed', hRun⟩ := hLoop (List.range t.entry) _ _ hHeader
  have hFold : (List.range t.entry).foldl
      (fun sheet k => typeText (down sheet) (entryText (t.map k)))
      (typeText (sheetOf { s with i := i, j := j }) ([Call.printString (chars "Entries: "),
        .printNumber t.entry].flatMap text)) =
      listing (sheetOf { s with i := i, j := j }) t.entries := by
    have hLength : t.entries.length = t.entry := by simp
    unfold listing
    rw [hLength, Pmm.Table.entries, List.foldl_map]
    simp [text]
  rw [hFold] at hRest
  have hAll := hFramed.trans hFramed'
  refine ⟨s', hRest, ?_, rfl, ?_⟩
  · simp only [search]
    rw [hRun]
    rfl
  · simp only [search]
    rw [hRun]
    exact ⟨hAll.outside, hAll.written⟩

/-- The report on one entry, from the last cell of the screen. -/
theorem search_shows_lastCell : ∃ s',
    Displays s' (listing (sheetOf { lastCell with i := 1999, j := 0 })
      [⟨0x100000, 0x7EE0000, 1, 1⟩]) ∧
      (search (Pmm.Table.ofList [⟨0x100000, 0x7EE0000, 1, 1⟩]) 1999 0 lastCell).screen =
        s'.screen := by
  obtain ⟨s', hDisplays, hScreen, -, -⟩ :=
    search_shows (Pmm.Table.ofList [⟨0x100000, 0x7EE0000, 1, 1⟩]) 0 lastCell
      (show OnScreen 1999 by decide)
  exact ⟨s', hDisplays, hScreen⟩

end MiniKernel.Ports.ConsoleReports

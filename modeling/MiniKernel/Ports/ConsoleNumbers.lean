import MiniKernel.Ports.ConsoleText
import MiniKernel.Verified.Cells
import MiniKernel.Verified.EventLog

/-!
# What the numbers on the screen are

`print_number` puts its digits into `buffer`, the last one first, and prints them from
behind; `printNumberLogged` has its loops, with a log of the indices into `buffer`.
Neither it nor `print_hex` tests the cursor after each character as `print_string` does.
`numbers_refine_strings` says that all the same they show what `print_string` shows of
the numeral.
-/

namespace MiniKernel.Ports.ConsoleNumbers

open MiniKernel.Verified.Cells
open MiniKernel.Verified.EventLog
open MiniKernel.Verified.Windows
open MiniKernel.Ports.Console
open MiniKernel.Ports.Console.Terminal
open MiniKernel.Ports.ConsoleText

/-! ## The digit buffer -/

/-- The first loop of `print_number`: `counter` and `buffer` afterwards. -/
def fill (n pos counter : Nat) (buffer : Nat → Nat) : Logged Nat (Nat × (Nat → Nat)) :=
  if n = 0 then done (counter, buffer)
  else (emit [pos]).andThen fun _ =>
    fill (n / 10) (pos + 1) (counter + 1)
      (fun k => if k = pos then n % 10 + '0'.toNat else buffer k)
termination_by n
decreasing_by omega

/-- The second loop of `print_number`. -/
def drain (buffer : Nat → Nat) : (counter : Nat) → Logged Nat (List Op)
  | 0 => done []
  | counter + 1 => (emit [counter]).andThen fun _ =>
      (drain buffer counter).andThen fun ops => done (printDigit (buffer counter) ++ ops)

/-- `print_number`, with what is in `buffer` at first. -/
def printNumberLogged (n : Nat) (buffer : Nat → Nat) : Logged Nat (List Op) :=
  if n = 0 then done (printDigit '0'.toNat ++ [.addLineIfNeeded])
  else (fill n 0 0 buffer).andThen fun filled =>
    (drain filled.2 filled.1).andThen fun ops => done (ops ++ [.addLineIfNeeded])

/-- The characters that the first loop makes of `n`. -/
def lowFirst (n : Nat) : List Nat := (Nat.digits 10 n).map (· + '0'.toNat)

theorem lowFirst_pos {n : Nat} (hn : n ≠ 0) :
    lowFirst n = (n % 10 + '0'.toNat) :: lowFirst (n / 10) := by
  unfold lowFirst
  rw [Nat.digits_def' (by decide) (Nat.pos_of_ne_zero hn), List.map_cons]

theorem digitChar_toNat {d : Nat} (hd : d < 10) : d + '0'.toNat = d.digitChar.toNat := by
  revert d
  decide

/-- From behind they are the numeral. -/
theorem reverse_lowFirst {n : Nat} (hn : n ≠ 0) :
    (lowFirst n).reverse = (Nat.toDigits 10 n).map Char.toNat := by
  induction n using Nat.strong_induction_on with
  | _ n ih =>
      rw [lowFirst_pos hn, List.reverse_cons, digitChar_toNat (Nat.mod_lt n (by decide)),
        Nat.toDigits_eq_if (by decide)]
      by_cases hSmall : n < 10
      · rw [if_pos hSmall, Nat.div_eq_of_lt hSmall, Nat.mod_eq_of_lt hSmall]
        rfl
      · rw [if_neg hSmall, ih (n / 10) (by omega) (by omega), List.map_append]
        rfl

theorem fill_log (n pos counter : Nat) (buffer : Nat → Nat) :
    (fill n pos counter buffer).log = List.range' pos (lowFirst n).length := by
  induction n using Nat.strong_induction_on generalizing pos counter buffer with
  | _ n ih =>
      unfold fill
      by_cases hn : n = 0
      · rw [if_pos hn, hn]
        rfl
      · rw [if_neg hn, emit_andThen, ih (n / 10) (by omega), lowFirst_pos hn]
        rfl

/-- **The first loop** spells the digits from `pos` on and counts them. -/
theorem fill_result (n pos counter : Nat) (buffer : Nat → Nat) :
    ∃ buffer', (fill n pos counter buffer).result =
        some (counter + (lowFirst n).length, buffer') ∧
      Spells buffer' pos (lowFirst n) ∧ ∀ k < pos, buffer' k = buffer k := by
  induction n using Nat.strong_induction_on generalizing pos counter buffer with
  | _ n ih =>
      unfold fill
      by_cases hn : n = 0
      · rw [if_pos hn, hn]
        exact ⟨buffer, rfl, spells_nil _ _, fun _ _ => rfl⟩
      · rw [if_neg hn, emit_andThen]
        obtain ⟨buffer', hResult, hSpells, hKept⟩ := ih (n / 10) (by omega) (pos + 1)
          (counter + 1) (fun k => if k = pos then n % 10 + '0'.toNat else buffer k)
        refine ⟨buffer', ?_, ?_, fun k hk => ?_⟩
        · simp only [hResult, lowFirst_pos hn, List.length_cons]
          rw [Nat.add_right_comm, Nat.add_assoc]
        · rw [lowFirst_pos hn]
          exact ⟨(hKept pos (Nat.lt_succ_self _)).trans (if_pos rfl), hSpells⟩
        · rw [hKept k (by omega), if_neg (by omega)]

/-- **The second loop** prints the first `counter` cells from behind. -/
theorem drain_eq (buffer : Nat → Nat) (counter : Nat) :
    drain buffer counter =
      ⟨(List.range counter).reverse,
        some (((List.range counter).map buffer).reverse.flatMap printDigit)⟩ := by
  induction counter with
  | zero => rfl
  | succ counter ih =>
      rw [drain, emit_andThen, ih, List.range_succ, List.reverse_append, List.map_append,
        List.reverse_append]
      simp [Logged.andThen, done]

/-- **`buffer` is large enough**, and what is printed from it is the numeral. -/
theorem printNumberLogged_spec {n : Nat} (hn : n < 2 ^ 32) (buffer : Nat → Nat) :
    (printNumberLogged n buffer).result = some (printNumber n) ∧
      ∀ k ∈ (printNumberLogged n buffer).log, k < 21 := by
  unfold printNumberLogged
  by_cases hZero : n = 0
  · subst hZero
    exact ⟨rfl, fun k hk => absurd hk List.not_mem_nil⟩
  · obtain ⟨buffer', hResult, hSpells, -⟩ := fill_result n 0 0 buffer
    have hLength : (lowFirst n).length ≤ 10 := by
      rw [lowFirst, List.length_map]
      exact (Nat.digits_length_le_iff (by decide) n).mpr (by omega)
    have hDigits : (List.range (0 + (lowFirst n).length)).map buffer' = lowFirst n :=
      map_range_eq_iff.mpr ⟨Nat.zero_add _, hSpells⟩
    rw [if_neg hZero]
    constructor
    · rw [result_andThen, hResult]
      simp only [Option.bind_some, drain_eq, result_andThen, hDigits, reverse_lowFirst hZero,
        result_done, printNumber, List.flatMap_map]
    · intro k hk
      rw [log_andThen hResult, drain_eq, log_andThen_done, fill_log, List.mem_append,
        List.mem_reverse, List.mem_range, List.mem_range'_1] at hk
      omega

/-! ## Numerals -/

/-- The decimal numeral of `n`, without leading zeros. -/
def decimal (n : Nat) : List Nat := (toString n).toList.map Char.toNat

/-- `0x` and the last eight upper-case hexadecimal digits of `n`. -/
def hexadecimal (n : Nat) : List Nat :=
  ['0'.toNat, 'x'.toNat] ++
    (List.range 8).reverse.map fun k => (n / 16 ^ k % 16).digitChar.toUpper.toNat

/-- A text as `print_number` and `print_hex` print it. -/
def printDigits (cs : List Nat) : List Op := cs.flatMap printDigit ++ [.addLineIfNeeded]

theorem printNumber_eq (n : Nat) : printNumber n = printDigits (decimal n) := by
  unfold printNumber printDigits decimal
  rw [Nat.toString_eq_ofList_toDigits, String.toList_ofList, List.flatMap_map]

/-- The table of `print_hex`. -/
theorem hex_getD {d : Nat} (hd : d < 16) :
    "0123456789ABCDEF".toList.getD d '0' = d.digitChar.toUpper := by
  revert d
  decide

theorem nibble_eq (n k : Nat) : (n >>> (4 * k)) &&& 0xF = n / 16 ^ k % 16 := by
  have hMask := Nat.and_two_pow_sub_one_eq_mod (n >>> (4 * k)) 4
  rw [Nat.shiftRight_eq_div_pow, Nat.pow_mul] at hMask
  rw [Nat.shiftRight_eq_div_pow, Nat.pow_mul]
  exact hMask

theorem printHex_eq (n : Nat) : printHex n = printDigits (hexadecimal n) := by
  have hDigit (k : Nat) : "0123456789ABCDEF".toList.getD ((n >>> (4 * k)) &&& 0xF) '0' =
      (n / 16 ^ k % 16).digitChar.toUpper := by
    rw [nibble_eq]
    exact hex_getD (Nat.mod_lt _ (by decide))
  have hShifts : [28, 24, 20, 16, 12, 8, 4, 0] = (List.range 8).reverse.map (4 * ·) := rfl
  unfold printHex printDigits hexadecimal
  simp only [hShifts, List.flatMap_map, hDigit, List.flatMap_append, List.flatMap_cons,
    List.flatMap_nil, List.append_nil, List.append_assoc]

/-- No numeral has a new line in it. -/
theorem newline_notMem_decimal (n : Nat) : '\n'.toNat ∉ decimal n := by
  unfold decimal
  rw [Nat.toString_eq_ofList_toDigits, String.toList_ofList, List.mem_map]
  rintro ⟨c, hc, hLine⟩
  have hDigit : c.isDigit := Nat.isDigit_of_mem_toDigits (by decide) (by decide) hc
  rw [Char.toNat_inj.mp hLine] at hDigit
  exact absurd hDigit (by decide)

theorem newline_notMem_hexadecimal (n : Nat) : '\n'.toNat ∉ hexadecimal n := by
  have hDigit : ∀ d < 16, d.digitChar.toUpper.toNat ≠ '\n'.toNat := by decide
  unfold hexadecimal
  rw [List.mem_append, List.mem_map]
  rintro (hPrefix | ⟨k, -, hLine⟩)
  · revert hPrefix
    decide
  · exact hDigit _ (Nat.mod_lt _ (by decide)) hLine

/-! ## What they show -/

variable {s : Terminal} {sheet : Sheet Cell} {t : Nat}

/-- Testing the cursor before each character and at the end is enough. -/
theorem near_printDigits (h : Near s sheet t) {cs : List Nat} (hLine : '\n'.toNat ∉ cs) :
    Displays (runAll (printDigits cs) s) (typeText sheet cs) ∧
      Framed s (runAll (printDigits cs) s) := by
  unfold printDigits
  induction cs generalizing s sheet t with
  | nil => exact h.settle
  | cons c cs ih =>
      rw [List.mem_cons, not_or] at hLine
      obtain ⟨hReady, hFirst⟩ := h.settle
      obtain ⟨hNear, hPut⟩ := hReady.put c
      obtain ⟨hRest, hFramed⟩ := ih hNear hLine.2
      have hTyped : typeChar sheet c = sheet.put (Cell.mk (c % 256) 0x0F) :=
        if_neg fun hEq => hLine.1 hEq.symm
      rw [List.flatMap_cons, List.append_assoc, runAll_append, typeText, List.foldl_cons, hTyped]
      exact ⟨hRest, (hFirst.trans hPut).trans hFramed⟩

/-- The same screen and the same cursor. -/
def Alike (s s' : Terminal) : Prop := s.screen = s'.screen ∧ s.i = s'.i

theorem printDigits_alike (hOn : OnScreen s.i) {cs : List Nat} (hLine : '\n'.toNat ∉ cs) :
    Alike (runAll (printDigits cs) s) (runAll (printString cs) s) := by
  have hDisplays := displays_sheetOf hOn
  obtain ⟨hDigits, hFramed⟩ := near_printDigits hDisplays.near hLine
  obtain ⟨hString, hFramed'⟩ := hDisplays.printString cs
  exact hDigits.unique hString hFramed hFramed'

/-- **Numbers are printed as their numerals are.**  From any screen and any cursor on it,
`print_number` and `print_hex` leave what `print_string` leaves, and whatever `buffer`
holds at first, no index is outside it. -/
theorem numbers_refine_strings (hOn : OnScreen s.i) {n : Nat} (hn : n < 2 ^ 32) :
    Alike (runAll (printNumber n) s) (runAll (printString (decimal n)) s) ∧
      Alike (runAll (printHex n) s) (runAll (printString (hexadecimal n)) s) ∧
      ∀ buffer, (printNumberLogged n buffer).result = some (printNumber n) ∧
        ∀ k ∈ (printNumberLogged n buffer).log, k < 21 := by
  refine ⟨?_, ?_, printNumberLogged_spec hn⟩
  · rw [printNumber_eq]
    exact printDigits_alike hOn (newline_notMem_decimal n)
  · rw [printHex_eq]
    exact printDigits_alike hOn (newline_notMem_hexadecimal n)

/-- A number that is scrolled: its first digit goes to the last cell. -/
theorem numbers_refine_strings_lastCell :
    (runAll (printNumber 1024) lastCell).screen 1920 = Cell.mk '0'.toNat 0x0F ∧
      Alike (runAll (printHex 1024) lastCell)
        (runAll (printString (hexadecimal 1024)) lastCell) := by
  obtain ⟨hNumber, hHex, -⟩ :=
    numbers_refine_strings (s := lastCell) (by decide) (n := 1024) (by decide)
  refine ⟨(congrFun hNumber.1 1920).trans ?_, hHex⟩
  decide +kernel

end MiniKernel.Ports.ConsoleNumbers

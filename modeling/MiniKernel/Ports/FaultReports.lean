import MiniKernel.Ports.ConsoleReports
import MiniKernel.Ports.DescriptorTables
import MiniKernel.Ports.TrapFrames

/-!
# Faults

`isr8`, `isr13`, `isr14` and `isr_common` of `exception.asm`, and
`fault_handler`.  The processor pushes a frame and an error code, the stub the
vector and all registers, and then it looks its arguments up in what has been
pushed.  `fault_handler` prints them and halts the processor for good; the frames
of the C functions, further down the stack, are not part of the port.
-/

namespace MiniKernel.Ports.FaultReports

open MiniKernel.Verified.ByteMemory
open MiniKernel.Verified.WordStack
open MiniKernel.Verified.Protection
open MiniKernel.Ports.Console (Call Terminal OnScreen printString)
open MiniKernel.Ports.Console.Terminal
open MiniKernel.Ports.ConsoleText
open MiniKernel.Ports.ConsoleNumbers
open MiniKernel.Ports.ConsoleReports
open MiniKernel.Ports.DescriptorTables (Handlers Layout Installed tables target Possible)
open MiniKernel.Ports.TrapFrames

/-- What the processor pushes on the way to a handler: memory and the stack pointer. -/
def pushEvent (m : Mem) (c : Cpu) (x : Entry) : Mem × Nat :=
  let s := match x.stack with
    | some (esp, _) => pushAll m esp [c.ss, c.esp]
    | none => (m, c.esp)
  pushAll s.1 s.2 ([c.eflags, c.cs, c.eip] ++ x.code.toList)

/-- `pusha`. -/
def pusha (c : Cpu) (s : Mem × Nat) : Mem × Nat :=
  pushAll s.1 s.2 [c.eax, c.ecx, c.edx, c.ebx, s.2, c.ebp, c.esi, c.edi]

/-- The stub of a vector and `isr_common`, until `fault_handler` begins; the call
pushes the address `back` after it. -/
def isrCommon (vector back : Nat) (c : Cpu) (s : Mem × Nat) : Mem × Nat :=
  let s := pusha c (pushAll s.1 s.2 [vector])
  pushAll s.1 s.2 [word s.1 (s.2 + 40), word s.1 (s.2 + 36), word s.1 (s.2 + 32), back]

/-- The calls of `fault_handler`; `cr2` is read for a page fault only. -/
def faultCalls (vector errorCode eip cr2 : Nat) : List Call :=
  [ .printString (chars "FAULT: vector "), .printHex vector, .printString (chars "\n"),
    .printString (chars "error_code = "), .printHex errorCode, .printString (chars "\n"),
    .printString (chars "eip = "), .printHex eip, .printString (chars "\n") ] ++
  if vector = 14 then
    [.printString (chars "CR2 = "), .printHex cr2, .printString (chars "\n")]
  else []

/-- `fault_handler`, up to `cli; hlt`. -/
def faultHandler (vector errorCode eip cr2 : Nat) (s : Terminal) : Terminal :=
  runCalls (faultCalls vector errorCode eip cr2) s

/-- One line of the report. -/
def line (label : String) (value : Nat) : List Nat :=
  chars label ++ hexadecimal value ++ chars "\n"

def faultText (vector errorCode eip cr2 : Nat) : List Nat :=
  line "FAULT: vector " vector ++ line "error_code = " errorCode ++ line "eip = " eip ++
    if vector = 14 then line "CR2 = " cr2 else []

theorem faultCalls_text (vector errorCode eip cr2 : Nat) :
    (faultCalls vector errorCode eip cr2).flatMap text = faultText vector errorCode eip cr2 := by
  unfold faultCalls faultText
  split <;> simp [line, text]

/-! ## The arguments -/

variable {m : Mem} {c : Cpu} {x : Entry}

/-- The frame, the error code, the vector and the registers, from the top of the
stack downwards. -/
def stubWords (vector code : Nat) (c : Cpu) (p : Nat) : List Nat :=
  [c.eflags, c.cs, c.eip, code, vector, c.eax, c.ecx, c.edx, c.ebx, p - 20, c.ebp, c.esi, c.edi]

@[simp] theorem stubWords_length (vector code : Nat) (c : Cpu) (p : Nat) :
    (stubWords vector code c p).length = 13 := rfl

theorem pusha_stubWords (m : Mem) (p vector code : Nat) (c : Cpu) :
    pusha c (pushAll (pushAll m p [c.eflags, c.cs, c.eip, code]).1
        (pushAll m p [c.eflags, c.cs, c.eip, code]).2 [vector]) =
      pushAll m p (stubWords vector code c p) := by
  have hsp : (pushAll m p ([c.eflags, c.cs, c.eip, code] ++ [vector])).2 = p - 20 := by
    rw [pushAll_sp]
    rfl
  rw [← pushAll_append, pusha, hsp, ← hsp, ← pushAll_append, hsp]
  rfl

theorem stubWords_wide {p vector code : Nat} (hRange : p < 2 ^ 32) (hWide : c.Wide)
    (hVector : vector < 2 ^ 32) (hCode : code < 2 ^ 32) :
    ∀ w ∈ stubWords vector code c p, w < 2 ^ 32 := by
  have hWords := hWide.words (show 0 < 2 ^ 32 by decide)
  simp only [Cpu.userFrame, Cpu.frame, List.cons_append, List.nil_append, List.forall_mem_cons]
    at hWords
  obtain ⟨-, -, -, -, hedi, hesi, hebp, -, hebx, hedx, hecx, heax, heip, hcs, heflags, -⟩ := hWords
  simp only [stubWords, List.forall_mem_cons]
  exact ⟨heflags, hcs, heip, hCode, hVector, heax, hecx, hedx, hebx, by omega, hebp, hesi, hedi,
    fun _ hw => absurd hw List.not_mem_nil⟩

/-- **The stub finds its arguments**, wherever the frame lies. -/
theorem isrCommon_arguments {p vector back code : Nat} (hRoom : 68 ≤ p) (hRange : p < 2 ^ 32)
    (hWide : c.Wide) (hVector : vector < 2 ^ 32) (hBack : back < 2 ^ 32) (hCode : code < 2 ^ 32)
    (m : Mem) :
    ∃ m', isrCommon vector back c (pushAll m p [c.eflags, c.cs, c.eip, code]) = (m', p - 68) ∧
      Laid m' (p - 68) [back, vector, code, c.eip] ∧ ∀ y, y < p - 68 ∨ p ≤ y → m' y = m y := by
  have hWords := stubWords_wide hRange hWide hVector hCode
  have hLaid :=
    laid_pushAll (stubWords vector code c p) m p (by rw [stubWords_length]; omega) hWords
  have hsp := pushAll_sp (stubWords vector code c p) m p
  have hApart := fun y => pushAll_apart (x := y) (stubWords vector code c p) m p
    (by rw [stubWords_length]; omega)
  unfold isrCommon
  rw [pusha_stubWords]
  rw [stubWords_length] at hLaid hsp hApart
  generalize pushAll m p (stubWords vector code c p) = s at hLaid hsp hApart ⊢
  obtain ⟨m₁, q⟩ := s
  simp only at hLaid hsp hApart ⊢
  subst hsp
  have hEip : word m₁ (p - 4 * 13 + 40) = c.eip := hLaid.word_at (n := 10) (by simp)
  have hError : word m₁ (p - 4 * 13 + 36) = code := hLaid.word_at (n := 9) (by simp)
  have hNumber : word m₁ (p - 4 * 13 + 32) = vector := hLaid.word_at (n := 8) (by simp)
  rw [hEip, hError, hNumber]
  have hFour : ∀ w ∈ [c.eip, code, vector, back], w < 2 ^ 32 := by
    simp only [List.forall_mem_cons]
    exact ⟨hWords c.eip (by simp [stubWords]), hCode, hVector, hBack,
      fun _ hw => absurd hw List.not_mem_nil⟩
  have hPushed := laid_pushAll [c.eip, code, vector, back] m₁ (p - 4 * 13)
    (by simp only [List.length_cons, List.length_nil]; omega) hFour
  have hEnd := pushAll_sp [c.eip, code, vector, back] m₁ (p - 4 * 13)
  have hAbove := fun y => pushAll_apart (x := y) [c.eip, code, vector, back] m₁ (p - 4 * 13)
    (by simp only [List.length_cons, List.length_nil]; omega)
  simp only [List.length_cons, List.length_nil] at hPushed hEnd hAbove
  rw [show p - 4 * 13 - 4 * (0 + 1 + 1 + 1 + 1) = p - 68 by omega] at hPushed hEnd hAbove
  exact ⟨_, Prod.ext rfl hEnd, hPushed,
    fun y hy => (hAbove y (by omega)).trans (hApart y (by omega))⟩

/-! ## The report -/

/-- A fault: what is on the screen at the halt, and memory when `fault_handler` begins. -/
def fault (m : Mem) (l : Layout) (back : Nat) (c : Cpu) (e : Event) (cr2 : Nat) (s : Terminal) :
    Option (Terminal × Mem) :=
  match deliver m (tables l) (c.cs % 4) e with
  | .enters x =>
      if x.vector ∈ [8, 13, 14] then
        let r := isrCommon x.vector back c (pushEvent m c x)
        some
          (faultHandler (word r.1 (r.2 + 4)) (word r.1 (r.2 + 8)) (word r.1 (r.2 + 12)) cr2 s, r.1)
      else none
  | .shutdown => none

/-- Where the stack that the handler uses ends. -/
def trapTop (esp0 : Nat) (c : Cpu) : Nat := if 0 < c.cs % 4 then esp0 else c.esp

/-- A program that calls the vector of the keyboard. -/
def caller : Cpu where
  gs := 0x23
  fs := 0x23
  es := 0x23
  ds := 0x23
  edi := 0
  esi := 0
  ebp := 0
  ebx := 0
  edx := 0
  ecx := 0
  eax := 0
  eip := 0x08048010
  cs := 0x1B
  eflags := 0x202
  esp := 0xBFFFF000
  ss := 0x23

end MiniKernel.Ports.FaultReports

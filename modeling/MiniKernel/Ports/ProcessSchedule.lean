import MiniKernel.Verified.LinkLog
import MiniKernel.Ports.ProcessRotation

/-!
# `schedule` as a search

`schedule` goes from the link of the current process to the end of the list and then from
its head to the current process.  `scheduleLogged` is `schedule` with the pointers it
dereferences and the turns its loops may take; for a list `front ++ current :: back` it
is the search for a ready process through `back ++ front`.
-/

namespace MiniKernel.Ports.ProcessSchedule

open MiniKernel.Verified.Links
open MiniKernel.Verified.EventLog
open MiniKernel.Verified.LinkLog
open MiniKernel.Ports.Kmalloc (addresses)
open MiniKernel.Ports.ProcessTable
open MiniKernel.Ports.ProcessRotation

variable {k : Kernel} {front back : List Nat}

/-- One of the two loops: the test reads `next->state`. -/
def readySearch (k : Kernel) (stop turns : Nat) (first : Nat) : Logged Nat Nat :=
  seekLogged k.next (isReady k) (fun p => [p]) stop turns first

/-- `schedule`, with the pointers it dereferences. -/
def scheduleLogged (turns : Nat) (k : Kernel) : Logged Nat Nat :=
  (emit [k.currentProcess]).andThen fun _ =>
    (readySearch k 0 turns (k.next k.currentProcess)).andThen fun next =>
      if next ≠ 0 then done next else readySearch k k.currentProcess turns k.processList

theorem result_scheduleLogged (k : Kernel) : (scheduleLogged addresses k).result = k.schedule := by
  rw [scheduleLogged, emit_andThen, result_andThen, readySearch, result_seekLogged, Kernel.schedule]
  congr 1
  funext next
  split
  · rfl
  · rw [readySearch, result_seekLogged]
    rfl

/-- The two loops are one search through the nodes behind the current process and then
those in front of it. -/
theorem scheduleLogged_eq
    (hList : Linked k.next k.processList (front ++ k.currentProcess :: back)) {turns : Nat}
    (hTurns : (front ++ k.currentProcess :: back).length < turns) :
    scheduleLogged turns k =
      ⟨k.currentProcess :: visits (isReady k) (fun p => [p]) (back ++ front),
        some (((back ++ front).find? (isReady k)).getD 0)⟩ := by
  have hTail : Linked k.next (k.next k.currentProcess) back := hList.suffix.2.2
  have hApart := (List.nodup_append.mp hList.nodup).2.2
  have hAhead : k.currentProcess ∉ front := fun hc => hApart _ hc _ (by simp) rfl
  rw [List.length_append, List.length_cons] at hTurns
  have hBehind : readySearch k 0 turns (k.next k.currentProcess) =
      ⟨visits (isReady k) (fun p => [p]) back, some ((back.find? (isReady k)).getD 0)⟩ :=
    seekLogged_linked hTail (by omega)
  have hFront : readySearch k k.currentProcess turns k.processList =
      ⟨visits (isReady k) (fun p => [p]) front, some ((front.find? (isReady k)).getD 0)⟩ :=
    seekLogged_path hList.path_to hAhead (by omega)
  rw [scheduleLogged, emit_andThen, hBehind, hFront, visits_append, List.find?_append]
  cases hFind : back.find? (isReady k) with
  | none => simp [Logged.andThen]
  | some r =>
      have hr : r ≠ 0 :=
        hList.ne_zero r (by simp [List.mem_of_find?_eq_some hFind])
      simp [Logged.andThen, done, hr]

/-- **`schedule` as a search.**  Whatever the states are, it ends, with the same run for
every number of turns above the length of the list; it dereferences listed processes only;
and it returns the first ready process of `back ++ front`, or the null pointer if no other
process is ready. -/
theorem schedule_search
    (hList : Linked k.next k.processList (front ++ k.currentProcess :: back)) :
    ∃ log r, (∀ turns, (front ++ k.currentProcess :: back).length < turns →
        scheduleLogged turns k = ⟨log, some r⟩) ∧
      (∀ p ∈ log, p ≠ 0 ∧ p ∈ front ++ k.currentProcess :: back) ∧
      (r = 0 ↔ ∀ p ∈ front ++ k.currentProcess :: back, p ≠ k.currentProcess →
        k.state p ≠ .ready) ∧
      (r ≠ 0 → ∃ before after, back ++ front = before ++ r :: after ∧ k.state r = .ready ∧
        ∀ p ∈ before, k.state p ≠ .ready) ∧
      ((∀ p ∈ front ++ k.currentProcess :: back, p < 2 ^ 32) → k.schedule = some r) := by
  have hAround : ∀ p, p ∈ back ++ front ↔
      p ∈ front ++ k.currentProcess :: back ∧ p ≠ k.currentProcess := by
    intro p
    have hAhead : k.currentProcess ∉ front := fun hc =>
      (List.nodup_append.mp hList.nodup).2.2 _ hc _ (by simp) rfl
    rw [← around_append back hAhead]
    exact mem_around hList.nodup (by simp)
  have hFound : ∀ r, (back ++ front).find? (isReady k) = some r → r ≠ 0 ∧ k.state r = .ready := by
    intro r hr
    have hIn := ((hAround r).mp (List.mem_of_find?_eq_some hr)).1
    exact ⟨hList.ne_zero r hIn, by simpa [isReady] using List.find?_some hr⟩
  refine ⟨_, _, fun turns => scheduleLogged_eq hList, fun p hp => ?_, ?_, ?_, fun hRange => ?_⟩
  · have hIn : p ∈ front ++ k.currentProcess :: back := by
      rcases List.mem_cons.mp hp with rfl | hp
      · simp
      · obtain ⟨x, hx, hMem⟩ := visits_node hp
        have hEq : p = x := by simpa using hMem
        exact hEq ▸ ((hAround x).mp hx).1
    exact ⟨hList.ne_zero p hIn, hIn⟩
  · cases hFind : (back ++ front).find? (isReady k) with
    | none =>
        have hNobody := List.find?_eq_none.mp hFind
        refine ⟨fun _ p hIn hne hReady => ?_, fun _ => rfl⟩
        exact hNobody p ((hAround p).mpr ⟨hIn, hne⟩) (by simp [isReady, hReady])
    | some r =>
        obtain ⟨hr, hReady⟩ := hFound r hFind
        obtain ⟨hIn, hne⟩ := (hAround r).mp (List.mem_of_find?_eq_some hFind)
        exact ⟨fun h0 => absurd h0 hr, fun hNobody => absurd hReady (hNobody r hIn hne)⟩
  · cases hFind : (back ++ front).find? (isReady k) with
    | none => exact fun hr => absurd rfl hr
    | some r =>
        intro _
        obtain ⟨-, before, after, hSplit, hBefore⟩ := List.find?_eq_some_iff_append.mp hFind
        refine ⟨before, after, hSplit, (hFound r hFind).2, fun p hp => ?_⟩
        simpa [isReady] using hBefore p hp
  · have hShort : (front ++ k.currentProcess :: back).length < addresses :=
      hList.length_lt hRange (by decide)
    rw [← result_scheduleLogged, scheduleLogged_eq hList hShort]

/-- Four processes of which the second is blocked and the third runs: the fourth is next. -/
theorem schedule_search_four :
    ∃ log, scheduleLogged 5 fourProcesses = ⟨log, some 0x4000⟩ ∧ 0 ∉ log ∧
      fourProcesses.schedule = some 0x4000 := by
  have hList : Linked fourProcesses.next fourProcesses.processList
      ([0x1000, 0x2000] ++ fourProcesses.currentProcess :: [0x4000]) := by decide
  obtain ⟨log, r, hRun, hLog, -, -, hSchedule⟩ := schedule_search hList
  have hFour : scheduleLogged 5 fourProcesses = ⟨[0x3000, 0x4000], some 0x4000⟩ := by rfl
  have hEq := (hRun 5 (by decide)).symm.trans hFour
  obtain ⟨rfl, hr⟩ := Logged.mk.inj hEq
  obtain rfl := Option.some.inj hr
  exact ⟨_, hFour, fun h0 => (hLog 0 h0).1 rfl, hSchedule (by decide)⟩

end MiniKernel.Ports.ProcessSchedule

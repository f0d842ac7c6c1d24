import MiniKernel.Ports.BootMap
import MiniKernel.Verified.Transfers

/-!
# Loading the kernel

What the boot sector does after `do_e820`: `read_kernel` brings the kernel from
the disk in pieces of 64 sectors and a last one of fewer, `protected_mode`
jumps to it, and `start` of `kernel_entry.asm` clears its `.bss` before it calls
`kernel`.

The BIOS is asked with a packet, `Dap`, and answers each `int 13h` with the
carry flag; without it the sectors have been stored.  The variables of the boot
sector are a record of their own, apart from `mem`.
-/

namespace MiniKernel.Ports.KernelLoad

open MiniKernel.Verified.ByteMemory
open MiniKernel.Verified.Transfers
open MiniKernel.Ports.Pmm
open MiniKernel.Ports.BootMap

/-- `KERNEL_SECTORS`. -/
def kernelSectors : Nat := 134

/-- The disk address packet. -/
structure Dap where
  count : Nat
  offset : Nat
  segment : Nat
  lbaLow : Nat
  lbaHigh : Nat
  deriving Repr, DecidableEq

/-- Where the sectors go: `segment:offset` in real mode. -/
def Dap.buffer (d : Dap) : Nat := 16 * d.segment + d.offset

/-- Memory, the packet, `kernel_remaining`, and all packets handed to the BIOS. -/
structure Loader where
  mem : Mem
  dap : Dap
  kernelRemaining : Nat
  requests : List Dap

/-- Up to the interrupt: how many sectors to ask for. -/
def request (c : Loader) : Loader :=
  let dap := { c.dap with count := if 64 ≤ c.kernelRemaining then 64 else c.kernelRemaining }
  { c with dap := dap, requests := c.requests ++ [dap] }

/-- `int 13h` with `ah = 0x42`, when it succeeds. -/
def int13 (disk : Nat → UInt8) (c : Loader) : Loader :=
  { c with
    mem := transfer disk (512 * (c.dap.lbaLow + 2 ^ 32 * c.dap.lbaHigh)) c.dap.buffer
      (512 * c.dap.count) c.mem }

/-- From the `sub` after the interrupt to `.advance_lba`. -/
def advance (c : Loader) : Loader :=
  let count := c.dap.count
  let step := if count = 64 then 0x800 else count * 32 % 2 ^ 16
  { c with
    kernelRemaining := (c.kernelRemaining + (2 ^ 16 - count)) % 2 ^ 16
    dap :=
      { c.dap with
        segment := (c.dap.segment + step) % 2 ^ 16
        lbaLow := (c.dap.lbaLow + count) % 2 ^ 32 } }

/-- `read_kernel`, for the carry flags that the BIOS answers with: whether it
ends in `disk_error`. -/
def readKernel (disk : Nat → UInt8) (c : Loader) : List Bool → Option (Bool × Loader)
  | [] => none
  | carry :: answers =>
      let c := request c
      -- what a failed request has stored in its buffer is left open
      if carry then some (true, c)
      else
        let c := advance (int13 disk c)
        if c.kernelRemaining ≠ 0 then readKernel disk c answers else some (false, c)

/-- The boot sector at `read_kernel`, for a kernel of `n` sectors. -/
def beforeRead (m : Mem) (n : Nat) : Loader where
  mem := m
  dap := { count := 64, offset := 0, segment := 0x1000, lbaLow := 1, lbaHigh := 0 }
  kernelRemaining := n
  requests := []

/-! ## The loop -/

/-- How many times the BIOS is asked. -/
def pieces (n : Nat) : Nat := (n + 63) / 64

/-- The packet of piece `k`. -/
def packet (n k : Nat) : Dap where
  count := min 64 (n - 64 * k)
  offset := 0
  segment := 0x1000 + 0x800 * k
  lbaLow := 1 + 64 * k
  lbaHigh := 0

/-- The first `k` pieces of `n` sectors have been read. -/
structure Read (disk : Nat → UInt8) (m : Mem) (n k : Nat) (c : Loader) : Prop where
  mem : c.mem = transfer disk 512 0x10000 (512 * min n (64 * k)) m
  offset : c.dap.offset = 0
  segment : 64 * k < n → c.dap.segment = 0x1000 + 0x800 * k
  lbaLow : 64 * k < n → c.dap.lbaLow = 1 + 64 * k
  lbaHigh : c.dap.lbaHigh = 0
  remaining : c.kernelRemaining = n - 64 * k
  requests : c.requests = (List.range k).map (packet n)

variable {disk : Nat → UInt8} {m : Mem} {n k : Nat} {c : Loader}

theorem beforeRead_read (disk : Nat → UInt8) (m : Mem) (n : Nat) :
    Read disk m n 0 (beforeRead m n) where
  mem := by simp [beforeRead]
  offset := rfl
  segment _ := rfl
  lbaLow _ := rfl
  lbaHigh := rfl
  remaining := rfl
  requests := rfl

/-- The next packet is the one that belongs to the next piece. -/
theorem request_packet (h : Read disk m n k c) (hMore : 64 * k < n) :
    (request c).dap = packet n k := by
  have hRemaining := h.remaining
  have hCount : (if 64 ≤ c.kernelRemaining then 64 else c.kernelRemaining) =
      min 64 (n - 64 * k) := by
    rw [hRemaining]
    split <;> omega
  simp only [request, packet, hCount, h.offset, h.segment hMore, h.lbaLow hMore, h.lbaHigh]

/-- **One piece.** -/
theorem read_piece (h : Read disk m n k c) (hMore : 64 * k < n) (hFew : n ≤ 1920) :
    Read disk m n (k + 1) (advance (int13 disk (request c))) := by
  have hDap := request_packet h hMore
  have hRemaining := h.remaining
  constructor
  · show transfer disk _ (request c).dap.buffer _ c.mem = _
    have hPiece : min n (64 * (k + 1)) = min n (64 * k) + min 64 (n - 64 * k) := by omega
    have hSource : 512 * ((packet n k).lbaLow + 2 ^ 32 * (packet n k).lbaHigh) =
        512 + 512 * min n (64 * k) := by
      simp only [packet]
      omega
    have hBuffer : (packet n k).buffer = 0x10000 + 512 * min n (64 * k) := by
      simp only [packet, Dap.buffer]
      omega
    rw [hDap, hSource, hBuffer, h.mem, transfer_add, hPiece, Nat.mul_add]
    rfl
  · exact h.offset
  · intro hNext
    have hFull : (packet n k).count = 64 := by
      simp only [packet]
      omega
    show ((request c).dap.segment + if (request c).dap.count = 64 then 0x800 else _) % 2 ^ 16 = _
    rw [hDap, if_pos hFull]
    simp only [packet]
    omega
  · intro hNext
    show ((request c).dap.lbaLow + (request c).dap.count) % 2 ^ 32 = _
    rw [hDap]
    simp only [packet]
    omega
  · exact h.lbaHigh
  · show (c.kernelRemaining + (2 ^ 16 - (request c).dap.count)) % 2 ^ 16 = _
    rw [hDap, hRemaining]
    simp only [packet]
    omega
  · show c.requests ++ [(request c).dap] = _
    rw [h.requests, hDap, List.range_succ, List.map_append]
    rfl

/-- How many times the BIOS succeeds before it fails. -/
def good (answers : List Bool) : Nat := (answers.takeWhile (!·)).length

@[simp] theorem good_cons_true (answers : List Bool) : good (true :: answers) = 0 := rfl

@[simp] theorem good_cons_false (answers : List Bool) :
    good (false :: answers) = good answers + 1 := rfl

/-- How the loop ends when it has read `k` pieces and `answers` are to come. -/
structure Ends (disk : Nat → UInt8) (m : Mem) (n k : Nat) (answers : List Bool)
    (failed : Bool) (c : Loader) : Prop where
  error : failed = decide (k + good answers < pieces n)
  mem : failed = false → c.mem = transfer disk 512 0x10000 (512 * n) m
  requests : c.requests =
    (List.range (min (pieces n) (k + good answers + 1))).map (packet n)

/-- **The loop**, from any piece on. -/
theorem readKernel_ends (hFew : n ≤ 1920) : ∀ (answers : List Bool) (k : Nat) (c : Loader),
    Read disk m n k c → 64 * k < n → pieces n ≤ k + answers.length →
      ∃ failed c', readKernel disk c answers = some (failed, c') ∧
        Ends disk m n k answers failed c' := by
  intro answers
  induction answers with
  | nil =>
      intro k c _ hMore hEnough
      unfold pieces at hEnough
      simp only [List.length_nil] at hEnough
      omega
  | cons carry answers ih =>
      intro k c hRead hMore hEnough
      have hPieces : k < pieces n := by
        unfold pieces
        omega
      cases carry with
      | true =>
          refine ⟨true, _, rfl, by simp [hPieces], fun hOk => absurd hOk (by decide), ?_⟩
          have hHere : min (pieces n) (k + good (true :: answers) + 1) = k + 1 := by
            rw [good_cons_true]
            omega
          show c.requests ++ [(request c).dap] = _
          rw [hRead.requests, request_packet hRead hMore, hHere, List.range_succ, List.map_append]
          rfl
      | false =>
          have hPiece := read_piece hRead hMore hFew
          have hRemaining := hPiece.remaining
          by_cases hNext : 64 * (k + 1) < n
          · have hSome : (advance (int13 disk (request c))).kernelRemaining ≠ 0 := by omega
            simp only [List.length_cons] at hEnough
            obtain ⟨failed, c', hRun, hFailed, hMem, hRequests⟩ :=
              ih (k + 1) _ hPiece hNext (by omega)
            have hGood : k + 1 + good answers = k + good (false :: answers) := by
              rw [good_cons_false]
              omega
            rw [hGood] at hFailed hRequests
            exact ⟨failed, c', (if_pos hSome).trans hRun, hFailed, hMem, hRequests⟩
          · have hNone : ¬(advance (int13 disk (request c))).kernelRemaining ≠ 0 := by omega
            have hLast : pieces n = k + 1 := by
              unfold pieces
              omega
            refine ⟨false, _, if_neg hNone, ?_, fun _ => ?_, ?_⟩
            · rw [good_cons_false, hLast]
              simp
            · rw [hPiece.mem]
              congr 1
              omega
            · have hAll : min (pieces n) (k + good (false :: answers) + 1) = k + 1 := by
                rw [good_cons_false]
                omega
              rw [hPiece.requests, hAll]

theorem good_lt_iff : ∀ {answers : List Bool} {n : Nat}, n ≤ answers.length →
    (good answers < n ↔ ∃ k < n, answers[k]? = some true) := by
  intro answers
  induction answers with
  | nil =>
      intro n hn
      obtain rfl : n = 0 := Nat.le_zero.mp hn
      simp
  | cons carry answers ih =>
      intro n hn
      cases n with
      | zero => simp
      | succ n =>
          cases carry with
          | true => exact ⟨fun _ => ⟨0, Nat.succ_pos n, rfl⟩, fun _ => Nat.succ_pos n⟩
          | false =>
              rw [good_cons_false, Nat.add_lt_add_iff_right, ih (by simpa using hn)]
              constructor
              · rintro ⟨k, hk, hTrue⟩
                exact ⟨k + 1, by omega, by simpa using hTrue⟩
              · rintro ⟨k, hk, hTrue⟩
                cases k with
                | zero => simp at hTrue
                | succ k => exact ⟨k, by omega, by simpa using hTrue⟩

/-- The sectors fill one buffer that does not cross a 64 KiB boundary. -/
def Dap.Proper (d : Dap) : Prop :=
  0 < d.count ∧ d.count ≤ 64 ∧ d.buffer / 2 ^ 16 = (d.buffer + (512 * d.count - 1)) / 2 ^ 16

theorem packet_proper (h : k < pieces n) : (packet n k).Proper := by
  unfold pieces at h
  simp only [Dap.Proper, packet, Dap.buffer]
  refine ⟨by omega, by omega, ?_⟩
  omega

/-- What the loop comes to. -/
theorem readKernel_result (disk : Nat → UInt8) (m : Mem) {n : Nat} {answers : List Bool}
    (hSome : 0 < n) (hFew : n ≤ 1920) (hEnough : pieces n ≤ answers.length) :
    ∃ failed c, readKernel disk (beforeRead m n) answers = some (failed, c) ∧
      (failed = true ↔ ∃ k < pieces n, answers[k]? = some true) ∧
      (failed = false → c.mem = transfer disk 512 0x10000 (512 * n) m) ∧
      c.requests = (List.range (min (pieces n) (good answers + 1))).map (packet n) := by
  obtain ⟨failed, c, hRun, hFailed, hMem, hRequests⟩ :=
    readKernel_ends hFew answers 0 _ (beforeRead_read disk m n) (by omega) (by omega)
  rw [Nat.zero_add] at hFailed hRequests
  refine ⟨failed, c, hRun, ?_, hMem, hRequests⟩
  rw [hFailed, decide_eq_true_iff]
  exact good_lt_iff hEnough

/-- **`read_kernel`**, for a kernel of any size below 1 MiB: the BIOS is asked
for consecutive pieces in proper buffers, the loop ends in `disk_error` exactly
if it fails for one of them, and otherwise the sectors from the second on lie
one after another at `0x10000`, and nothing else is written. -/
theorem readKernel_loads (disk : Nat → UInt8) (m : Mem) {n : Nat} {answers : List Bool}
    (hSome : 0 < n) (hFew : n ≤ 1920) (hEnough : pieces n ≤ answers.length) :
    ∃ failed c, readKernel disk (beforeRead m n) answers = some (failed, c) ∧
      (failed = true ↔ ∃ k < pieces n, answers[k]? = some true) ∧
      (failed = false → c.mem = transfer disk 512 0x10000 (512 * n) m ∧
        c.requests = (List.range (pieces n)).map (packet n)) ∧
      ∀ d ∈ c.requests, d.Proper := by
  obtain ⟨failed, c, hRun, hFailed, hMem, hRequests⟩ :=
    readKernel_result disk m hSome hFew hEnough
  refine ⟨failed, c, hRun, hFailed, fun hOk => ⟨hMem hOk, ?_⟩, fun d hd => ?_⟩
  · have hGood : ¬good answers < pieces n := by
      rw [good_lt_iff hEnough, ← hFailed, hOk]
      decide
    rw [hRequests, show min (pieces n) (good answers + 1) = pieces n by omega]
  · rw [hRequests] at hd
    obtain ⟨k, hk, rfl⟩ := List.mem_map.mp hd
    have hLt := List.mem_range.mp hk
    exact packet_proper (by omega)

theorem readKernel_loads_image : ∃ c,
    readKernel (fun x => UInt8.ofNat (x / 512)) (beforeRead (fun _ => 0) kernelSectors)
      [false, false, false] = some (false, c) ∧
      c.mem (0x10000 + 512 * 133) = 134 ∧ c.mem (0x10000 + 512 * 134) = 0 ∧
      c.requests.map Dap.count = [64, 64, 6] := by
  obtain ⟨failed, c, hRun, hFailed, hOk, -⟩ :=
    readKernel_loads (fun x => UInt8.ofNat (x / 512)) (fun _ => 0)
      (show 0 < kernelSectors by decide) (by decide)
      (show pieces kernelSectors ≤ [false, false, false].length by decide)
  have hNone : ¬∃ k < pieces kernelSectors, [false, false, false][k]? = some true := by decide
  obtain rfl : failed = false := Bool.eq_false_iff.mpr fun hTrue => hNone (hFailed.mp hTrue)
  obtain ⟨hMem, hRequests⟩ := hOk rfl
  refine ⟨c, hRun, ?_, ?_, ?_⟩
  · rw [hMem, transfer_in (by decide) (by decide)]
    decide
  · rw [hMem, transfer_apart (by decide)]
  · rw [hRequests]
    decide

/-! ## From the disk to `kernel` -/

/-- `disk.img` as the makefile makes it: `boot.bin`, which is one sector, and
`kernel.bin` behind it, over zeros. -/
def diskImage (bootBin kernelBin : List UInt8) : Nat → UInt8 := fun x =>
  if 512 ≤ x then kernelBin.getD (x - 512) 0 else bootBin.getD x 0

/-- `protected_mode`, which leaves a mark on the screen. -/
def protectedMode (m : Mem) : Mem := store m 0xB8000 0x0F5 2

/-- `start`: `rep stosb` over the `.bss`. -/
def start (bssStart bssEnd : Nat) (m : Mem) : Mem :=
  fill 0 bssStart ((bssEnd + (2 ^ 32 - bssStart)) % 2 ^ 32) m

/-- The boot sector up to the call of `kernel`, for the answers of the BIOS; no
result if it ends in `disk_error`. -/
def boot (stack : Nat) (disk : Nat → UInt8) (bssStart bssEnd : Nat) (m : Mem)
    (entries : List Answer) (reads : List Bool) : Option Mem :=
  (doE820 stack m entries).bind fun r =>
    if r.1 then none
    else (readKernel disk (beforeRead r.2.mem kernelSectors) reads).bind fun r =>
      if r.1 then none else some (start bssStart bssEnd (protectedMode r.2.mem))

/-- Memory when `kernel` is called. -/
structure Starts (bin : List UInt8) (bssStart bssEnd : Nat) (m : Mem) (entries : List Answer)
    (m' : Mem) : Prop where
  image : ∀ k < bin.length, m' (0x10000 + k) =
    if k < 512 * kernelSectors then bin.getD k 0 else m (0x10000 + k)
  bss : ∀ x, bssStart ≤ x → x < bssEnd → m' x = 0
  map : (bootTable m').entries = wanted (read entries)

section

variable {stack bssStart bssEnd : Nat} {a : Answer} {c₁ c' : Machine} {bin : List UInt8}

theorem int15_frame (hStack : stack ≤ 0x7C00) {b c₁ : Machine} (h : int15 stack b a = some c₁)
    {x : Nat} (hx : 0x7C00 ≤ x) : c₁.mem x = b.mem x := by
  unfold int15 at h
  split at h
  · obtain rfl := Option.some.inj h
    simp only
    split
    · exact store_apply_apart (by omega)
    · rw [putEntry_apart a (by omega), store_apply_apart (by omega)]
  · cases h

theorem loopp_mem (b : Machine) (a : Answer) : (loopp b a).2.mem = b.mem := by
  unfold loopp next
  split
  · rfl
  · split
    · rfl
    · split <;> rfl

theorem finish_frame (b : Machine) {x : Nat} (hx : 0x7C00 ≤ x) : (finish b).mem x = b.mem x :=
  store_apply_apart (by unfold mmapEnt; omega)

/-- `do_e820` writes below the boot sector only. -/
theorem search_frame (hStack : stack ≤ 0x7C00) : ∀ (answers : List Answer) (b : Machine)
    (carry : Bool), search stack b answers = some (carry, c') →
      ∀ x, 0x7C00 ≤ x → c'.mem x = b.mem x := by
  intro answers
  induction answers with
  | nil =>
      intro b carry h
      cases h
  | cons a answers ih =>
      intro b carry h x hx
      rw [search] at h
      obtain ⟨c₁, hInt, hRest⟩ := Option.bind_eq_some_iff.mp h
      have hFirst := int15_frame hStack hInt hx
      split at hRest
      · cases hRest
        exact hFirst
      · simp only at hRest
        split at hRest
        · rw [ih _ _ hRest x hx, loopp_mem, hFirst]
        · cases hRest
          rw [finish_frame _ hx, loopp_mem, hFirst]

/-- What `do_e820` leaves, as far as the kernel is concerned. -/
theorem doE820_leaves (hStack : stack ≤ 0x7C00) (m : Mem) {entries : List Answer}
    (h : Sequence entries) :
    (∀ b, doE820 stack m entries = some (false, b) →
      (bootTable b.mem).entries = wanted (read entries) ∧
        ∀ x, 0x7C00 ≤ x → b.mem x = m x) ∧
      ((∃ b, doE820 stack m entries = some (false, b)) ↔ Ended stack 0 entries) := by
  obtain ⟨hEntry, hMore, hRest⟩ := h
  next a answers =>
  have hFilled : Filled { mem := m, di := mapStart, bp := 0 } [] := ⟨rfl, rfl, trivial⟩
  obtain ⟨hTable, hEnded⟩ := search_runs hStack (Rest.more hEntry hMore hRest) hFilled
  rw [← doE820_eq_search stack m answers hEntry hMore] at hTable hEnded
  refine ⟨fun b hRun => ⟨?_, fun x hx => ?_⟩, fun ⟨b, hRun⟩ => hEnded b hRun, fun hEnd => ?_⟩
  · obtain ⟨b', hRun', hEntries⟩ := hTable (hEnded b hRun)
    rw [hRun] at hRun'
    cases hRun'
    exact hEntries
  · rw [doE820_eq_search stack m answers hEntry hMore] at hRun
    exact search_frame hStack _ _ _ hRun x hx
  · obtain ⟨b, hRun, -⟩ := hTable hEnd
    exact ⟨b, hRun⟩

/-- The table stays as it is when nothing is written below `0x10000`. -/
theorem bootTable_frame {m m' : Mem} {es : List MemoryMap} (hEntries : (bootTable m).entries = es)
    (hRoom : mapStart + 24 * es.length ≤ 0x10000) (hSame : ∀ x, x < 0x10000 → m' x = m x) :
    (bootTable m').entries = es := by
  rw [Table.entries_eq_iff] at hEntries ⊢
  obtain ⟨hCount, hCells⟩ := hEntries
  constructor
  · rw [← hCount]
    exact load_congr fun x _ hx => hSame x (by unfold mmapEnt at hx; omega)
  · refine hCells.frame fun k _ hk => entryAt_congr fun x _ hx => hSame x ?_
    omega

theorem wanted_length_le (answers : List Answer) :
    (wanted answers).length ≤ (wanted answers.dropLast).length + 1 := by
  rcases answers.eq_nil_or_concat' with rfl | ⟨init, last, rfl⟩
  · simp [wanted]
  · rw [List.dropLast_concat, wanted, List.filter_append, List.map_append, List.length_append,
      List.length_map, List.length_map, wanted, List.length_map]
    have hLast := List.length_filter_le (fun a : Answer => decide a.Kept) [last]
    simp only [List.length_singleton] at hLast
    omega

/-- What `start` leaves of the memory that the boot sector has filled. -/
theorem start_apply (m : Mem) {x : Nat} (hOrder : bssStart ≤ bssEnd) (hRange : bssEnd < 2 ^ 32) :
    start bssStart bssEnd m x = if bssStart ≤ x ∧ x < bssEnd then 0 else m x := by
  have hSize : (bssEnd + (2 ^ 32 - bssStart)) % 2 ^ 32 = bssEnd - bssStart := by omega
  rw [start, hSize, fill_eq_transfer]
  split
  · next hIn => exact transfer_in hIn.1 (by omega)
  · next hOut => exact transfer_apart (by omega)

end

/-- **From the disk to `kernel`.**  `kernel` is called exactly if `do_e820` comes
to its end and none of the three reads fails.  It then finds its image as far as
the 134 sectors reach, a `.bss` of zeros, and the memory map of the BIOS. -/
theorem boot_starts {stack bssStart bssEnd : Nat} (hStack : stack ≤ 0x7C00) (bootBin : List UInt8)
    {bin : List UInt8} (hVga : 0x10000 + bin.length ≤ 0xB8000)
    (hImage : 0x10000 + bin.length ≤ bssStart) (hOrder : bssStart ≤ bssEnd)
    (hRange : bssEnd < 2 ^ 32) (m : Mem) {entries : List Answer} (hEntries : Sequence entries)
    {reads : List Bool} (hReads : 3 ≤ reads.length) :
    ((∃ m', boot stack (diskImage bootBin bin) bssStart bssEnd m entries reads = some m') ↔
        Ended stack 0 entries ∧ ∀ k < 3, reads[k]? = some false) ∧
      ∀ m', boot stack (diskImage bootBin bin) bssStart bssEnd m entries reads = some m' →
        Starts bin bssStart bssEnd m entries m' := by
  obtain ⟨hLeaves, hEnded⟩ := doE820_leaves hStack m hEntries
  have hThree : pieces kernelSectors = 3 := rfl
  have hAnswers : (¬∃ k < 3, reads[k]? = some true) ↔ ∀ k < 3, reads[k]? = some false := by
    constructor
    · intro hNone k hk
      have hAt : reads[k]? = some reads[k] := List.getElem?_eq_getElem (by omega)
      cases hCarry : reads[k] with
      | false => rw [hAt, hCarry]
      | true => exact absurd ⟨k, hk, by rw [hAt, hCarry]⟩ hNone
    · rintro hAll ⟨k, hk, hTrue⟩
      rw [hAll k hk] at hTrue
      cases hTrue
  have hLoad := fun b : Mem => readKernel_result (diskImage bootBin bin) b (n := kernelSectors)
    (by decide) (by decide) (by omega : pieces kernelSectors ≤ reads.length)
  constructor
  · rw [← hEnded, ← hAnswers]
    constructor
    · rintro ⟨m', hBoot⟩
      obtain ⟨⟨carry, b⟩, hMap, hRest⟩ := Option.bind_eq_some_iff.mp hBoot
      cases carry with
      | true => cases hRest
      | false =>
          obtain ⟨failed, c, hRun, hFailed, -, -⟩ := hLoad b.mem
          simp only [Bool.false_eq_true, if_false, hRun, Option.bind_some] at hRest
          cases failed with
          | true => cases hRest
          | false => exact ⟨⟨b, hMap⟩, fun hSome => absurd (hFailed.mpr hSome) (by decide)⟩
    · rintro ⟨⟨b, hMap⟩, hNone⟩
      obtain ⟨failed, c, hRun, hFailed, -, -⟩ := hLoad b.mem
      have hOk : failed = false := by
        rw [← Bool.not_eq_true, hFailed]
        exact hNone
      refine ⟨start bssStart bssEnd (protectedMode c.mem), ?_⟩
      simp [boot, hMap, hRun, hOk]
  · intro m' hBoot
    obtain ⟨⟨carry, b⟩, hMap, hRest⟩ := Option.bind_eq_some_iff.mp hBoot
    cases carry with
    | true => cases hRest
    | false =>
        obtain ⟨failed, c, hRun, -, hLoaded, -⟩ := hLoad b.mem
        simp only [Bool.false_eq_true, if_false, hRun, Option.bind_some] at hRest
        cases failed with
        | true => cases hRest
        | false =>
            have hMem := hLoaded rfl
            obtain ⟨hTable, hHigh⟩ := hLeaves b hMap
            obtain rfl := Option.some.inj hRest
            have hRoom := (hEnded.mp ⟨b, hMap⟩).room
            have hLength := wanted_length_le (read entries)
            refine ⟨fun k hk => ?_, fun x hLow hEnd => ?_, ?_⟩
            · rw [start_apply _ hOrder hRange, if_neg (by omega), protectedMode,
                store_apply_apart (by omega), hMem]
              by_cases hLoadedByte : k < 512 * kernelSectors
              · rw [if_pos hLoadedByte, transfer_in (by omega) (by omega), diskImage,
                  if_pos (by omega), show 512 + (0x10000 + k - 0x10000) - 512 = k by omega]
              · rw [if_neg hLoadedByte, transfer_apart (by omega), hHigh _ (by omega)]
            · rw [start_apply _ hOrder hRange, if_pos ⟨hLow, hEnd⟩]
            · refine bootTable_frame hTable (by omega) fun x hx => ?_
              rw [start_apply _ hOrder hRange, if_neg (by omega), protectedMode,
                store_apply_apart (by omega), hMem, transfer_apart (by omega)]

theorem boot_starts_plain : ∃ m',
    boot 0x7000 (diskImage [] [0xEB, 0xFE]) 0x10004 0x10010 (fun _ => 1) plain
      [false, false, false] = some m' ∧
      m' 0x10000 = 0xEB ∧ m' 0x10004 = 0 ∧
        ((bootTable m').entries.map MemoryMap.base) = [0, 0x100000] := by
  have hSequence : Sequence plain :=
    .mk (by constructor <;> decide) (by decide)
      (.more (by constructor <;> decide) (by decide)
        (.last (by constructor <;> decide) (by decide)))
  obtain ⟨hIff, hStarts⟩ := boot_starts (show 0x7000 ≤ 0x7C00 by decide) []
    (show 0x10000 + [0xEB, 0xFE].length ≤ 0xB8000 by decide)
    (show 0x10000 + [0xEB, 0xFE].length ≤ 0x10004 by decide)
    (show 0x10004 ≤ 0x10010 by decide) (by decide) (fun _ => 1) hSequence
    (show 3 ≤ [false, false, false].length by decide)
  obtain ⟨m', hBoot⟩ := hIff.mpr ⟨by decide, by decide⟩
  obtain ⟨hImage, hBss, hMap⟩ := hStarts m' hBoot
  refine ⟨m', hBoot, hImage 0 (by decide), hBss 0x10004 (by decide) (by decide), ?_⟩
  rw [hMap]
  decide

end MiniKernel.Ports.KernelLoad

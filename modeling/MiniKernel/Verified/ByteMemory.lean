import Mathlib.Tactic

/-!
# Byte-addressed memory

A memory is a total function from addresses to bytes.  `load` and `store`
move little-endian words of any number of bytes.  Three facts are enough to
reason about records laid out in memory: a word reads back as it was written
(`load_store_self`), a write leaves every word apart from it alone
(`load_store_apart`), and a read depends only on the bytes it covers
(`load_congr`).
-/

namespace MiniKernel.Verified.ByteMemory

/-- Contents of memory, byte by byte. -/
abbrev Mem := Nat → UInt8

/-- Write one byte. -/
def setByte (m : Mem) (a : Nat) (b : UInt8) : Mem := fun x => if x = a then b else m x

/-- The `n`-byte little-endian word at `a`. -/
def load (m : Mem) (a : Nat) : Nat → Nat
  | 0 => 0
  | n + 1 => (m a).toNat + 256 * load m (a + 1) n

/-- Write `v` as an `n`-byte little-endian word at `a`. -/
def store (m : Mem) (a v : Nat) : Nat → Mem
  | 0 => m
  | n + 1 => store (setByte m a (UInt8.ofNat v)) (a + 1) (v / 256) n

theorem setByte_ne {m : Mem} {a x : Nat} (b : UInt8) (h : x ≠ a) :
    setByte m a b x = m x := by simp [setByte, h]

@[simp] theorem setByte_self (m : Mem) (a : Nat) (b : UInt8) :
    setByte m a b a = b := by simp [setByte]

/-- A store changes only the bytes it covers. -/
theorem store_apply_apart {a x : Nat} : ∀ {n : Nat} {m : Mem} {v : Nat},
    x < a ∨ a + n ≤ x → store m a v n x = m x := by
  intro n
  induction n generalizing a with
  | zero => intro m v _; rfl
  | succ n ih =>
      intro m v h
      rw [store, ih (by omega), setByte_ne _ (by omega)]

/-- A load depends only on the bytes it covers. -/
theorem load_congr {m m' : Mem} : ∀ {n a : Nat},
    (∀ x, a ≤ x → x < a + n → m' x = m x) → load m' a n = load m a n := by
  intro n
  induction n with
  | zero => intro a _; rfl
  | succ n ih =>
      intro a h
      rw [load, load, h a (by omega) (by omega),
        ih fun x hLow hHigh => h x (by omega) (by omega)]

/-- A word apart from the one written reads as before. -/
theorem load_store_apart {m : Mem} {a b v n k : Nat}
    (h : a + n ≤ b ∨ b + k ≤ a) : load (store m a v n) b k = load m b k :=
  load_congr fun _ hLow hHigh => store_apply_apart (by omega)

theorem load_lt (m : Mem) : ∀ (n a : Nat), load m a n < 256 ^ n := by
  intro n
  induction n with
  | zero => intro a; simp [load]
  | succ n ih =>
      intro a
      have hTail := ih (a + 1)
      have hHead := (m a).toNat_lt
      rw [load, Nat.pow_succ]
      omega

/-- A word is its low part and its high part. -/
theorem load_add (m : Mem) (k : Nat) : ∀ (n a : Nat),
    load m a (n + k) = load m a n + 256 ^ n * load m (a + n) k := by
  intro n
  induction n with
  | zero => intro a; simp [load]
  | succ n ih =>
      intro a
      rw [Nat.add_right_comm, load, load, ih, show a + 1 + n = a + (n + 1) by omega,
        Nat.pow_succ]
      ring

/-- A word reads back as it was written. -/
theorem load_store_self : ∀ {n a v : Nat} {m : Mem}, v < 256 ^ n →
    load (store m a v n) a n = v := by
  intro n
  induction n with
  | zero =>
      intro a v m h
      simp only [Nat.pow_zero] at h
      simp only [load]
      omega
  | succ n ih =>
      intro a v m h
      have hHead : (store (setByte m a (UInt8.ofNat v)) (a + 1) (v / 256) n a).toNat =
          v % 256 := by
        rw [store_apply_apart (by omega), setByte_self]
        simp
      have hTail : v / 256 < 256 ^ n := by
        rw [Nat.pow_succ] at h
        omega
      rw [load, store, hHead, ih hTail]
      omega

/-- A store keeps the low bytes. -/
theorem store_mod : ∀ (n a v : Nat) (m : Mem), store m a (v % 256 ^ n) n = store m a v n := by
  intro n
  induction n with
  | zero => intro a v m; rfl
  | succ n ih =>
      intro a v m
      have hByte : UInt8.ofNat (v % 256 ^ (n + 1)) = UInt8.ofNat v := by
        apply UInt8.toNat_inj.mp
        rw [UInt8.toNat_ofNat', UInt8.toNat_ofNat', Nat.pow_succ,
          Nat.mod_mul_left_mod]
      have hRest : v % 256 ^ (n + 1) / 256 = v / 256 % 256 ^ n := by
        rw [Nat.pow_succ, Nat.mod_mul_left_div_self]
      rw [store, store, hByte, hRest, ih]

theorem load_store_mod (n a v : Nat) (m : Mem) : load (store m a v n) a n = v % 256 ^ n := by
  rw [← store_mod]
  exact load_store_self (Nat.mod_lt _ (Nat.pow_pos (by decide)))

/-- **A store inside a region** moves the region's value by the change of the word,
at the word's place. -/
theorem load_store_region {m : Mem} {a k l n v : Nat} (h : k + l ≤ n) (hv : v < 256 ^ l) :
    load (store m (a + k) v l) a n + 256 ^ k * load m (a + k) l =
      load m a n + 256 ^ k * v := by
  obtain ⟨r, rfl⟩ : ∃ r, n = k + (l + r) := ⟨n - (k + l), by omega⟩
  have hBelow : load (store m (a + k) v l) a k = load m a k := load_store_apart (by omega)
  have hAbove : load (store m (a + k) v l) (a + k + l) r = load m (a + k + l) r :=
    load_store_apart (by omega)
  rw [load_add, load_add, load_add, load_add, hBelow, hAbove, load_store_self hv]
  ring

/-- The bytes of a word. -/
theorem store_apply : ∀ {n a v i : Nat} {m : Mem}, i < n →
    store m a v n (a + i) = UInt8.ofNat (v / 256 ^ i) := by
  intro n
  induction n with
  | zero => intro a v i m h; omega
  | succ n ih =>
      intro a v i m h
      cases i with
      | zero =>
          rw [store, store_apply_apart (by omega), Nat.add_zero, setByte_self, Nat.pow_zero,
            Nat.div_one]
      | succ i =>
          rw [store, show a + (i + 1) = a + 1 + i by omega, ih (by omega),
            Nat.div_div_eq_div_mul, Nat.pow_succ, Nat.mul_comm]

/-- The bytes of a loaded word are those in memory. -/
theorem load_byte (m : Mem) : ∀ {n a i : Nat}, i < n →
    UInt8.ofNat (load m a n / 256 ^ i) = m (a + i) := by
  intro n
  induction n with
  | zero => intro a i h; omega
  | succ n ih =>
      intro a i h
      have hHead := (m a).toNat_lt
      cases i with
      | zero =>
          apply UInt8.toNat_inj.mp
          rw [load, Nat.pow_zero, Nat.div_one, Nat.add_zero, UInt8.toNat_ofNat',
            Nat.add_mul_mod_self_left, Nat.mod_eq_of_lt hHead]
          rfl
      | succ i =>
          have hRest := ih (a := a + 1) (show i < n by omega)
          have hTail : ((m a).toNat + 256 * load m (a + 1) n) / 256 = load m (a + 1) n := by
            omega
          rw [load, Nat.pow_succ', ← Nat.div_div_eq_div_mul, hTail, hRest]
          congr 1
          omega

/-! ## Words that a store overlaps -/

/-- What the `n`-byte word at `b`, whose value is `old`, holds after the `l`-byte
word `v` is written at `a`: the bytes that both cover come from `v`. -/
def overwrite (a l v b : Nat) : Nat → Nat → Nat
  | 0, old => old
  | n + 1, old =>
      (if a ≤ b ∧ b < a + l then v / 256 ^ (b - a) % 256 else old % 256) +
        256 * overwrite a l v (b + 1) n (old / 256)

/-- **A store seen from any word.** -/
theorem load_store_overwrite (m : Mem) (a v l : Nat) : ∀ n b,
    load (store m a v l) b n = overwrite a l v b n (load m b n) := by
  intro n
  induction n with
  | zero => intro b; rfl
  | succ n ih =>
      intro b
      have hLow : load m b (n + 1) % 256 = (m b).toNat := by
        have := (m b).toNat_lt
        rw [load]
        omega
      have hHigh : load m b (n + 1) / 256 = load m (b + 1) n := by
        have := (m b).toNat_lt
        rw [load]
        omega
      rw [overwrite, hLow, hHigh, load, ih]
      congr 1
      split
      · next hIn =>
          obtain ⟨i, rfl⟩ := Nat.le.dest hIn.1
          rw [store_apply (by omega), UInt8.toNat_ofNat', Nat.add_sub_cancel_left]
      · next hOut => rw [store_apply_apart (by omega)]

/-- A word apart from the one written keeps its value. -/
theorem overwrite_apart {a l v : Nat} : ∀ {n b old : Nat}, a + l ≤ b ∨ b + n ≤ a →
    overwrite a l v b n old = old := by
  intro n
  induction n with
  | zero => intro b old _; rfl
  | succ n ih =>
      intro b old h
      rw [overwrite, if_neg (by omega), ih (by omega)]
      omega

/-- The memory with an array of `n` words at `a`. -/
def withArray (m : Mem) (a n : Nat) (f : Nat → Nat) : Mem :=
  fun x => if a ≤ x ∧ x < a + 4 * n then UInt8.ofNat (f ((x - a) / 4) / 256 ^ ((x - a) % 4))
    else m x

/-- Writing an array word by word. -/
theorem foldl_store_array (m : Mem) (a : Nat) (f : Nat → Nat) : ∀ n,
    (List.range n).foldl (fun m k => store m (a + 4 * k) (f k) 4) m = withArray m a n f := by
  intro n
  induction n with
  | zero =>
      funext x
      rw [withArray, if_neg (by omega)]
      rfl
  | succ n ih =>
      funext x
      rw [List.range_succ, List.foldl_append, ih]
      simp only [List.foldl_cons, List.foldl_nil]
      by_cases hLast : a + 4 * n ≤ x ∧ x < a + 4 * (n + 1)
      · obtain ⟨i, hi, rfl⟩ : ∃ i < 4, x = a + 4 * n + i := ⟨x - (a + 4 * n), by omega, by omega⟩
        rw [store_apply hi, withArray, if_pos (by omega),
          show (a + 4 * n + i - a) / 4 = n by omega, show (a + 4 * n + i - a) % 4 = i by omega]
      · rw [store_apply_apart (by omega), withArray, withArray]
        by_cases hIn : a ≤ x ∧ x < a + 4 * n
        · rw [if_pos hIn, if_pos (by omega)]
        · rw [if_neg hIn, if_neg (by omega)]

/-- An array written word by word reads back as it was written. -/
theorem load_array {f : Nat → Nat} (a : Nat) (m : Mem) : ∀ {n : Nat},
    (∀ k < n, f k < 256 ^ 4) → ∀ k, k < n →
      load ((List.range n).foldl (fun m k => store m (a + 4 * k) (f k) 4) m) (a + 4 * k) 4 =
        f k := by
  intro n
  induction n with
  | zero => intro _ k hk; omega
  | succ n ih =>
      intro hf k hk
      rw [List.range_succ, List.foldl_append]
      simp only [List.foldl_cons, List.foldl_nil]
      by_cases hEq : k = n
      · subst hEq
        exact load_store_self (hf k (by omega))
      · rw [load_store_apart (by omega)]
        exact ih (fun k hk => hf k (by omega)) k (by omega)

end MiniKernel.Verified.ByteMemory

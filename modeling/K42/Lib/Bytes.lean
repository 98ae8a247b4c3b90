import Mathlib.Data.List.Range
import Mathlib.Tactic.Ring

/-!
# Buffers of bytes

A buffer is a function from offsets to bytes. Numbers are stored with the most
significant byte first. A write changes the bytes it covers and no others, which
is said with `EqOutside`; what is read depends on the bytes covered alone.
-/

namespace Bytes

abbrev Buffer := ℕ → UInt8

/-- The `n` bytes from `p` on. -/
def read (b : Buffer) (p n : ℕ) : List UInt8 := (List.range n).map fun k => b (p + k)

/-- `bs` is written from `p` on. -/
def write (b : Buffer) (p : ℕ) (bs : List UInt8) : Buffer :=
  fun k => if p ≤ k then bs.getD (k - p) (b k) else b k

/-- The low `n` bytes of `v`. -/
def encode : ℕ → ℕ → List UInt8
  | 0, _ => []
  | n + 1, v => encode n (v / 256) ++ [UInt8.ofNat v]

/-- The number stored in `bs`. -/
def decode (bs : List UInt8) : ℕ := bs.foldl (fun v x => v * 256 + x.toNat) 0

/-- `bs` lies at `p`. -/
def Holds (b : Buffer) (p : ℕ) (bs : List UInt8) : Prop := read b p bs.length = bs

/-- `b'` is `b` but for the bytes from `lo` up to `hi`. -/
def EqOutside (lo hi : ℕ) (b b' : Buffer) : Prop := ∀ k, k < lo ∨ hi ≤ k → b' k = b k

variable {b b' b'' : Buffer} {p q n lo hi lo' hi' : ℕ} {bs : List UInt8}

@[simp] theorem length_read (b : Buffer) (p n : ℕ) : (read b p n).length = n := by
  simp [read]

@[simp] theorem length_encode (n v : ℕ) : (encode n v).length = n := by
  induction n generalizing v with
  | zero => rfl
  | succ n ih => simp [encode, ih]

theorem decode_append_singleton (bs : List UInt8) (x : UInt8) :
    decode (bs ++ [x]) = decode bs * 256 + x.toNat := by
  unfold decode
  rw [List.foldl_append]
  rfl

theorem decode_encode_mod (n v : ℕ) : decode (encode n v) = v % 256 ^ n := by
  induction n generalizing v with
  | zero =>
    rw [pow_zero, Nat.mod_one]
    rfl
  | succ n ih =>
    have hlow : (UInt8.ofNat v).toNat = v % 256 := UInt8.toNat_ofNat'
    have hsplit : v % 256 ^ (n + 1) = v / 256 % 256 ^ n * 256 + v % 256 := by
      rw [pow_succ', Nat.mod_mul]
      ring
    rw [encode, decode_append_singleton, ih, hlow, hsplit]

theorem decode_encode {n v : ℕ} (h : v < 256 ^ n) : decode (encode n v) = v := by
  rw [decode_encode_mod, Nat.mod_eq_of_lt h]

theorem decode_lt (bs : List UInt8) : decode bs < 256 ^ bs.length := by
  induction bs using List.reverseRecOn with
  | nil => decide
  | append_singleton bs x ih =>
    have hx : x.toNat < 256 := x.toNat_lt
    rw [decode_append_singleton, List.length_append, List.length_singleton, pow_succ]
    omega

theorem read_congr (h : ∀ k, p ≤ k → k < p + n → b' k = b k) : read b' p n = read b p n := by
  unfold read
  apply List.map_congr_left
  intro k hk
  rw [List.mem_range] at hk
  exact h (p + k) (by omega) (by omega)

theorem read_shift (h : ∀ k, k < n → b' (p + k) = b (q + k)) : read b' p n = read b q n := by
  apply List.map_congr_left
  simpa using h

theorem write_read_apply {k : ℕ} (hk : k < n) :
    write b p (read b' q n) (p + k) = b' (q + k) := by
  simp [write, read, hk]

theorem write_eqOutside (b : Buffer) (p : ℕ) (bs : List UInt8) :
    EqOutside p (p + bs.length) b (write b p bs) := by
  intro k hk
  unfold write
  by_cases hle : p ≤ k
  · rw [if_pos hle, List.getD_eq_getElem?_getD, List.getElem?_eq_none, Option.getD_none]
    omega
  · rw [if_neg hle]

theorem read_write_self (b : Buffer) (p : ℕ) (bs : List UInt8) :
    read (write b p bs) p bs.length = bs := by
  apply List.ext_getElem
  · simp
  · intro k h₁ h₂
    have hk : k < bs.length := h₂
    simp [read, write, hk]

theorem read_add (b : Buffer) (p m n : ℕ) : read b p (m + n) = read b p m ++ read b (p + m) n := by
  unfold read
  rw [List.range_add, List.map_append, List.map_map]
  congr 2
  funext k
  exact congrArg b (Nat.add_assoc p m k).symm

theorem holds_append {cs : List UInt8} :
    Holds b p (bs ++ cs) ↔ Holds b p bs ∧ Holds b (p + bs.length) cs := by
  unfold Holds
  rw [List.length_append, read_add]
  constructor
  · intro h
    exact List.append_inj h (length_read _ _ _)
  · rintro ⟨hbs, hcs⟩
    rw [hbs, hcs]

/-- A number that lies at `p`. -/
theorem Holds.decode {v : ℕ} (h : Holds b p (encode n v)) (hv : v < 256 ^ n) :
    Bytes.decode (read b p n) = v := by
  unfold Holds at h
  rw [length_encode] at h
  rw [h, decode_encode hv]

theorem holds_write_append (h : Holds b p bs) (cs : List UInt8) :
    Holds (write b (p + bs.length) cs) p (bs ++ cs) := by
  rw [holds_append]
  refine ⟨?_, read_write_self _ _ _⟩
  unfold Holds
  conv_rhs => rw [← h]
  apply read_congr
  intro k _ hk
  exact write_eqOutside b _ cs k (.inl hk)

namespace EqOutside

theorem trans (h : EqOutside lo hi b b') (h' : EqOutside lo hi b' b'') :
    EqOutside lo hi b b'' := by
  intro k hk
  rw [h' k hk, h k hk]

theorem mono (h : EqOutside lo hi b b') (hlo : lo' ≤ lo) (hhi : hi ≤ hi') :
    EqOutside lo' hi' b b' := by
  intro k hk
  apply h
  omega

/-- What lies outside reads the same. -/
theorem read (h : EqOutside lo hi b b') (hdisj : p + n ≤ lo ∨ hi ≤ p) :
    read b' p n = read b p n := by
  apply read_congr
  intro k hk₁ hk₂
  apply h
  omega

end EqOutside

end Bytes

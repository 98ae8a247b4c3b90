import K42.Lib.Bytes

/-!
# Lists of strings with length bytes

A list of strings is stored as one string, in which each is preceded by its length in one byte.
The offset of a string is the size of those before it.
-/

namespace Components

abbrev Component := List UInt8

/-- The number of bytes that store a list of strings. -/
def size (p : List Component) : ℕ := (p.map fun c => c.length + 1).sum

def encode (p : List Component) : List UInt8 := p.flatMap fun c => UInt8.ofNat c.length :: c

/-- The strings that `bs` stores, each at least one byte, so that as many steps are enough. -/
def decodeLoop : ℕ → List UInt8 → List Component
  | n + 1, l :: bs => bs.take l.toNat :: decodeLoop n (bs.drop l.toNat)
  | _, _ => []

def decode (bs : List UInt8) : List Component := decodeLoop bs.length bs

/-- A length that fits in a byte, and is not zero. -/
def Fits (c : Component) : Prop := 0 < c.length ∧ c.length < 256

instance (c : Component) : Decidable (Fits c) := inferInstanceAs (Decidable (_ ∧ _))

variable {p q : List Component} {c : Component}

@[simp] theorem size_nil : size [] = 0 := rfl

@[simp] theorem size_append (p q : List Component) : size (p ++ q) = size p + size q := by
  unfold size
  rw [List.map_append, List.sum_append]

@[simp] theorem size_cons (c : Component) (p : List Component) :
    size (c :: p) = c.length + 1 + size p := rfl

theorem size_concat (p : List Component) (c : Component) :
    size (p ++ [c]) = size p + (c.length + 1) := by
  rw [size_append, size_cons, size_nil, Nat.add_zero]

theorem size_eq_zero : size p = 0 ↔ p = [] := by
  cases p with
  | nil => exact ⟨fun _ => rfl, fun _ => rfl⟩
  | cons c p =>
    rw [size_cons]
    exact ⟨fun h => by omega, nofun⟩

@[simp] theorem encode_nil : encode [] = [] := rfl

@[simp] theorem encode_append (p q : List Component) : encode (p ++ q) = encode p ++ encode q :=
  List.flatMap_append

@[simp] theorem encode_cons (c : Component) (p : List Component) :
    encode (c :: p) = UInt8.ofNat c.length :: c ++ encode p := rfl

@[simp] theorem length_encode (p : List Component) : (encode p).length = size p := by
  induction p with
  | nil => rfl
  | cons c p ih =>
    rw [encode_cons, List.length_append, ih, List.length_cons, size_cons]

theorem toNat_length (hc : Fits c) : (UInt8.ofNat c.length).toNat = c.length :=
  UInt8.toNat_ofNat_of_lt' hc.2

/-- The strings of a list are those of one stored string. -/
theorem encode_inj (hp : ∀ c ∈ p, Fits c) (hq : ∀ c ∈ q, Fits c) (h : encode p = encode q) :
    p = q := by
  induction p generalizing q with
  | nil =>
    cases q with
    | nil => rfl
    | cons d q => cases h
  | cons c p ih =>
    cases q with
    | nil => cases h
    | cons d q =>
      have hc := hp c List.mem_cons_self
      have hd := hq d List.mem_cons_self
      rw [encode_cons, encode_cons, List.cons_append, List.cons_append, List.cons.injEq] at h
      have hlength : c.length = d.length := by
        rw [← toNat_length hc, h.1, toNat_length hd]
      obtain ⟨rfl, htail⟩ := List.append_inj h.2 hlength
      rw [ih (fun c hc => hp c (List.mem_cons_of_mem _ hc))
        (fun c hc => hq c (List.mem_cons_of_mem _ hc)) htail]

theorem decodeLoop_encode (hp : ∀ c ∈ p, Fits c) {n : ℕ} (hn : p.length ≤ n) :
    decodeLoop n (encode p) = p := by
  induction p generalizing n with
  | nil => cases n <;> rfl
  | cons c p ih =>
    obtain ⟨n, rfl⟩ := Nat.exists_eq_succ_of_ne_zero (Nat.ne_zero_of_lt hn)
    have hrest := ih (fun d hd => hp d (List.mem_cons_of_mem _ hd)) (Nat.le_of_succ_le_succ hn)
    rw [encode_cons, List.cons_append, decodeLoop, toNat_length (hp c List.mem_cons_self),
      List.take_left, List.drop_left, hrest]

theorem length_le_size (p : List Component) : p.length ≤ size p := by
  induction p with
  | nil => exact le_rfl
  | cons c p ih =>
    rw [List.length_cons, size_cons]
    omega

theorem decode_encode (hp : ∀ c ∈ p, Fits c) : decode (encode p) = p := by
  apply decodeLoop_encode hp
  rw [length_encode]
  exact length_le_size p

/-! ## In a buffer -/

/-- The buffer starts with the list. -/
def Stored (b : Bytes.Buffer) (p : List Component) : Prop := Bytes.read b 0 (size p) = encode p

variable {b b' : Bytes.Buffer}

theorem stored_iff : Stored b p ↔ ∀ i x, (encode p)[i]? = some x → b i = x := by
  have hlength : (encode p).length = size p := length_encode p
  constructor
  · intro h i x hx
    have hi : i < size p := by
      rw [← hlength]
      exact (List.getElem?_eq_some_iff.1 hx).1
    rw [← h] at hx
    unfold Bytes.read at hx
    rw [List.getElem?_map, List.getElem?_range hi, Option.map_some, Nat.zero_add] at hx
    exact Option.some.inj hx
  · intro h
    apply List.ext_getElem
    · rw [Bytes.length_read, hlength]
    · intro i h₁ h₂
      have hb := h i _ (List.getElem?_eq_getElem h₂)
      rw [← hb]
      simp [Bytes.read]

theorem Stored.congr (h : Stored b p) (hb : ∀ i, i < size p → b' i = b i) : Stored b' p := by
  unfold Stored
  rw [← h]
  apply Bytes.read_congr
  intro k _ hk
  rw [Nat.zero_add] at hk
  exact hb k hk

theorem Stored.left (h : Stored b (p ++ q)) : Stored b p := by
  rw [stored_iff] at h ⊢
  intro i x hx
  apply h
  rw [encode_append, List.getElem?_append_left]
  · exact hx
  · exact (List.getElem?_eq_some_iff.1 hx).1

/-- What is stored behind a list. -/
theorem Stored.right (h : Stored b (p ++ q)) {i : ℕ} {x : UInt8}
    (hx : (encode q)[i]? = some x) : b (size p + i) = x := by
  rw [stored_iff] at h
  apply h
  rw [encode_append, List.getElem?_append_right (by rw [length_encode]; exact Nat.le_add_right _ _),
    length_encode, Nat.add_sub_cancel_left]
  exact hx

/-- The length byte of a string. -/
theorem Stored.length (h : Stored b (p ++ c :: q)) : b (size p) = UInt8.ofNat c.length :=
  h.right (i := 0) rfl

theorem Stored.concat {d : Component} (h : Stored b p) (hlength : b (size p) = UInt8.ofNat d.length)
    (hd : ∀ i x, d[i]? = some x → b (size p + 1 + i) = x) : Stored b (p ++ [d]) := by
  rw [stored_iff] at h ⊢
  intro i x hx
  by_cases hi : i < size p
  · rw [encode_append, List.getElem?_append_left (by rw [length_encode]; exact hi)] at hx
    exact h i x hx
  · obtain ⟨j, rfl⟩ := Nat.exists_eq_add_of_le (not_lt.1 hi)
    rw [encode_append, List.getElem?_append_right (by rw [length_encode]; exact Nat.le_add_right _ _),
      length_encode, Nat.add_sub_cancel_left] at hx
    cases j with
    | zero =>
      cases hx
      exact hlength
    | succ j =>
      have hdj : d[j]? = some x := by
        simpa using hx
      rw [← hd j x hdj]
      congr 1
      omega

theorem stored_nil (b : Bytes.Buffer) : Stored b [] := rfl

end Components

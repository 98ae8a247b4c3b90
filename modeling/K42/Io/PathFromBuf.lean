import K42.Io.PathName

/-!
# Path names from a buffer

Servers check the path names in the buffers of their clients with `PathFromBuf`, which goes from
length to length. Behind a length of zero the next component is the null pointer: that is refused
only because the null pointer is further from the buffer than the buffer is long.

The operations on a path name that has been accepted are those on the list of its components. But
`appendComp` stores any length in the byte that is there for it.
-/

open Function (update update_of_ne update_self)
open List (mem_cons mem_append mem_cons_self cons_ne_nil)

namespace K42.PathName

open Components
open BitVec (add_comm lt_def ofNat ofNat_add toNat toNat_ofNat)

/-- `getNext` of a pointer, with the length byte for the length of the path. -/
def nextPtr (ptr : BitVec 64) (nmLen : UInt8) : BitVec 64 :=
  if nmLen = 0 then 0 else ptr + (BitVec.ofNat 64 nmLen.toNat + 1)

/-- The loop of `PathFromBuf` at `ptr`, with the offsets of the bytes that it reads. -/
def checkLoop (b : Bytes.Buffer) (np len : BitVec 64) : ℕ → BitVec 64 → Option (Bool × List ℕ)
  | 0, _ => none
  | n + 1, ptr =>
    if len < ptr - np then some (false, [])
    else if ptr - np = len then some (true, [])
    else
      let off := (ptr - np).toNat
      (checkLoop b np len n (nextPtr ptr (b off))).map fun r => (r.1, off :: r.2)

def PathFromBuf (b : Bytes.Buffer) (np len : BitVec 64) : Option (Bool × List ℕ) :=
  checkLoop b np len (len.toNat + 1) np

/-- The next component of the one at `tmp`, and the length from there on. -/
def getNext (b : Bytes.Buffer) (tmp : ℕ) (thisLen : BitVec 64) : Option (ℕ × BitVec 64) :=
  if thisLen = 0 then none
  else
    let nmLen := (b tmp).toNat
    let remLen := thisLen - (BitVec.ofNat 64 nmLen + 1)
    if remLen = 0 then none else some (tmp + nmLen + 1, remLen)

def startLoop (b : Bytes.Buffer) : ℕ → ℕ → BitVec 64 → Option ℕ
  | 0, _, _ => none
  | n + 1, tmp, remlen =>
    match getNext b tmp remlen with
    | none => some tmp
    | some (next, remnext) => startLoop b n next remnext

/-- The length of the path up to `ptr`, or, if it is null, without the last component. -/
def getStart (b : Bytes.Buffer) (thisLen : BitVec 64) (ptr : Option ℕ) : Option ℕ :=
  if thisLen = 0 then some 0
  else
    match ptr with
    | none => startLoop b thisLen.toNat 0 thisLen
    | some ptr => some ptr

def appendComp (b : Bytes.Buffer) (thisLen bufLen : ℕ) (str : List UInt8) :
    Option (Bytes.Buffer × ℕ) :=
  let reqLen := (thisLen + str.length + 1) % 2 ^ 64
  if bufLen < reqLen then none
  else
    some (update (Bytes.write b (thisLen + 1) str) thisLen (UInt8.ofNat str.length), reqLen)

def appendPath (b : Bytes.Buffer) (thisLen bufLen : ℕ) (pth : List UInt8) :
    Option (Bytes.Buffer × ℕ) :=
  let reqLen := (thisLen + pth.length) % 2 ^ 64
  if bufLen < reqLen then none else some (Bytes.write b thisLen pth, reqLen)

/-- The path is moved behind the place of the other one, which is copied to the front. -/
def prependPath (b : Bytes.Buffer) (thisLen bufLen : ℕ) (pth : List UInt8) :
    Option (Bytes.Buffer × ℕ) :=
  let reqLen := (thisLen + pth.length) % 2 ^ 64
  if bufLen < reqLen then none
  else
    some (Bytes.write (Bytes.write b pth.length (Bytes.read b 0 thisLen)) 0 pth, reqLen)

/-! ## The check -/

/-- The bytes of components with lengths from 1 to 255. -/
def IsPath (bs : List UInt8) : Prop := ∃ p : List Component, (∀ c ∈ p, Fits c) ∧ encode p = bs

theorem isPath_nil : IsPath [] := ⟨[], nofun, rfl⟩

theorem isPath_cons {l : UInt8} {bs : List UInt8} :
    IsPath (l :: bs) ↔ l ≠ 0 ∧ l.toNat ≤ bs.length ∧ IsPath (bs.drop l.toNat) := by
  constructor
  · rintro ⟨_ | ⟨c, p⟩, hp, he⟩
    · cases he
    · have hc := hp c mem_cons_self
      have hlen := toNat_length hc
      obtain ⟨rfl, htail⟩ := List.cons.inj he
      have hbs : bs = c ++ encode p := htail.symm
      refine ⟨fun hz => ?_, by simp [hbs, hlen], p,
        fun d hd => hp d (List.mem_cons_of_mem _ hd), by simp [hbs, hlen]⟩
      rw [hz] at hlen
      exact absurd hlen.symm (Nat.ne_of_gt hc.1)
  · rintro ⟨hl, hle, p, hp, he⟩
    have hlen : (bs.take l.toNat).length = l.toNat := List.length_take_of_le hle
    have hpos : l.toNat ≠ 0 := fun hz => hl (UInt8.toNat_inj.mp hz)
    refine ⟨bs.take l.toNat :: p, fun c hc => ?_, ?_⟩
    · rcases mem_cons.mp hc with rfl | hc
      · exact ⟨by omega, by rw [hlen]; exact l.toNat_lt⟩
      · exact hp c hc
    · rw [encode_cons, hlen, he, UInt8.ofNat_toNat, List.cons_append, List.take_append_drop]

variable {b : Bytes.Buffer} {np len : BitVec 64}

theorem ptr_sub (np : BitVec 64) (o : ℕ) :
    np + ofNat 64 o - np = ofNat 64 o := by
  rw [add_comm, BitVec.add_sub_cancel]

/-- An offset to which the lengths lead from the start of the path. -/
inductive Visited (b : Bytes.Buffer) (len : ℕ) : ℕ → Prop
  | start : Visited b len 0
  | next {o : ℕ} : Visited b len o → o < len → b o ≠ 0 → Visited b len (o + (b o).toNat + 1)

theorem Visited.le {len o : ℕ} (h : Visited b len o) : o ≤ len + 255 := by
  cases h with
  | start => exact Nat.zero_le _
  | @next o _ hlt _ =>
    have hb := (b o).toNat_lt
    omega

/-- A byte that is read is the first one, or it follows a component of which the length is read. -/
structure Checked (b : Bytes.Buffer) (len o : ℕ) (r : Bool × List ℕ) : Prop where
  accepts : r.1 = true ↔ o ≤ len ∧ IsPath ((Bytes.read b 0 len).drop o)
  inside : ∀ x ∈ r.2, x < len
  lengths : ∀ x ∈ r.2, x = o ∨ ∃ y ∈ r.2, x = y + (b y).toNat + 1

theorem checkLoop_checked (hnp : np ≠ 0) (hwrap : np.toNat + len.toNat < 2 ^ 64)
    (hlen : ∀ o, Visited b len.toNat o → o < 2 ^ 64) :
    ∀ (n o : ℕ), Visited b len.toNat o → len.toNat - o < n →
      ∃ r, checkLoop b np len n (np + ofNat 64 o) = some r ∧ Checked b len.toNat o r
  | 0, _, _, hn => absurd hn (Nat.not_lt_zero _)
  | n + 1, o, ho, hn => by
    have hoff : (ofNat 64 o).toNat = o := Nat.mod_eq_of_lt (hlen o ho)
    unfold checkLoop
    rw [ptr_sub]
    by_cases hgt : len.toNat < o
    · rw [if_pos (by rw [lt_def, hoff]; exact hgt)]
      exact ⟨_, rfl, by simp; omega, nofun, nofun⟩
    rw [if_neg (by rw [lt_def, hoff]; exact hgt)]
    by_cases heq : o = len.toNat
    · rw [if_pos (BitVec.eq_of_toNat_eq (hoff.trans heq))]
      refine ⟨_, rfl, iff_of_true rfl ⟨heq.le, ?_⟩, nofun, nofun⟩
      rw [List.drop_of_length_le (by simp [heq])]
      exact isPath_nil
    have hlt : o < len.toNat := by omega
    rw [if_neg fun h => heq (hoff.symm.trans (congrArg toNat h)), hoff]
    have hdrop : (Bytes.read b 0 len.toNat).drop o =
        b o :: (Bytes.read b 0 len.toNat).drop (o + 1) := by
      rw [List.drop_eq_getElem_cons (by simpa using hlt)]
      simp [Bytes.read]
    have hrest : ((Bytes.read b 0 len.toNat).drop (o + 1)).length = len.toNat - (o + 1) := by simp
    dsimp only [nextPtr]
    by_cases hzero : b o = 0
    · -- the null pointer
      obtain ⟨n, rfl⟩ := Nat.exists_eq_succ_of_ne_zero (show n ≠ 0 by omega)
      have hnull : len < 0 - np := by bv_omega
      rw [if_pos hzero, checkLoop, if_pos hnull]
      refine ⟨_, rfl, ?_, by simpa using hlt, by simp⟩
      rw [hdrop, isPath_cons]
      simp [hzero]
    · have hb := (b o).toNat_lt
      rw [if_neg hzero, show np + ofNat 64 o + (ofNat 64 (b o).toNat + 1) =
        np + ofNat 64 (o + (b o).toNat + 1) by
          rw [Nat.add_assoc, ofNat_add, ofNat_add, BitVec.add_assoc]; rfl]
      obtain ⟨r, hr, h⟩ := checkLoop_checked hnp hwrap hlen n (o + (b o).toNat + 1)
        (ho.next hlt hzero) (by omega)
      rw [hr]
      refine ⟨_, rfl, ?_, ?_, ?_⟩
      · rw [hdrop, isPath_cons, hrest, List.drop_drop]
        refine h.accepts.trans ?_
        rw [show o + 1 + (b o).toNat = o + (b o).toNat + 1 by omega]
        constructor
        · rintro ⟨hle, hp⟩
          exact ⟨hlt.le, hzero, by omega, hp⟩
        · rintro ⟨-, -, hle, hp⟩
          exact ⟨by omega, hp⟩
      · simpa [hlt] using h.inside
      · intro x hx
        rcases mem_cons.mp hx with rfl | hx
        · exact .inl rfl
        · rcases h.lengths x hx with rfl | ⟨y, hy, rfl⟩
          · exact .inr ⟨o, mem_cons_self, rfl⟩
          · exact .inr ⟨y, List.mem_cons_of_mem _ hy, rfl⟩

/-! ## The operations -/

variable {p pre rest : List Component} {c : Component}

/-- `p` is stored in the buffer, and its components can be. -/
structure Accepted (b : Bytes.Buffer) (p : List Component) : Prop where
  fits : ∀ c ∈ p, Fits c
  stored : Stored b p
  size_lt : size p < 2 ^ 64

/-- The operations that look for a component. -/
structure Looks (b : Bytes.Buffer) (p : List Component) : Prop where
  next : ∀ pre c rest, p = pre ++ c :: rest →
    getNext b (size pre) (BitVec.ofNat 64 (size (c :: rest))) =
      if rest = [] then none else some (size (pre ++ [c]), BitVec.ofNat 64 (size rest))
  prev : ∀ pre rest, p = pre ++ rest →
    getPrev ⟨b, size p⟩ (BitVec.ofNat 64 (size p)) (size pre) = some (size pre.dropLast)
  start : getStart b (BitVec.ofNat 64 (size p)) none = some (size p.dropLast)
  startAt : ∀ pre rest, p = pre ++ rest →
    getStart b (BitVec.ofNat 64 (size p)) (some (size pre)) = some (size pre)

/-- The result of an operation is `p`, and `p` is well-formed. -/
def Gives (result : Option (Bytes.Buffer × ℕ)) (p : List Component) : Prop :=
  ∃ b', result = some (b', size p) ∧ Stored b' p ∧ ∀ c ∈ p, Fits c

/-- The operations that put a path behind or before this one. -/
def Joins (b : Bytes.Buffer) (p : List Component) : Prop :=
  ∀ q bufLen, (∀ c ∈ q, Fits c) → size p + size q ≤ bufLen → bufLen < 2 ^ 64 →
    Gives (appendPath b (size p) bufLen (encode q)) (p ++ q) ∧
      Gives (prependPath b (size p) bufLen (encode q)) (q ++ p)

theorem stored_iff_holds : Stored b p ↔ Bytes.Holds b 0 (encode p) := by
  rw [Stored, Bytes.Holds, length_encode]

theorem toNat_size (h : size p < 2 ^ 64) : (ofNat 64 (size p)).toNat = size p :=
  Nat.mod_eq_of_lt h

theorem ofNat_size_eq_zero (h : size p < 2 ^ 64) : ofNat 64 (size p) = 0 ↔ p = [] := by
  rw [← size_eq_zero]
  constructor
  · intro hz
    rw [← toNat_size h, hz]
    rfl
  · intro hz
    rw [hz]
    rfl

theorem Accepted.getNext (h : Accepted b p) (hp : p = pre ++ c :: rest) :
    getNext b (size pre) (ofNat 64 (size (c :: rest))) =
      if rest = [] then none else some (size (pre ++ [c]), ofNat 64 (size rest)) := by
  subst hp
  have hlt := h.size_lt
  rw [size_append] at hlt
  have hrest : size rest < 2 ^ 64 := by
    rw [size_cons] at hlt
    omega
  have hrem : ofNat 64 (size (c :: rest)) - (ofNat 64 c.length + 1) =
      ofNat 64 (size rest) := by
    rw [size_cons, ofNat_add, ofNat_add, add_comm]
    exact BitVec.add_sub_cancel ..
  unfold PathName.getNext
  rw [if_neg fun hz => cons_ne_nil c rest ((ofNat_size_eq_zero (by omega)).mp hz),
    h.stored.length, toNat_length (h.fits c (by simp))]
  simp only [hrem, ofNat_size_eq_zero hrest, size_concat, Nat.add_assoc]

theorem Accepted.startLoop (h : Accepted b p) : ∀ (rest pre : List Component) (c : Component)
    {n : ℕ}, p = pre ++ c :: rest → rest.length < n →
    startLoop b n (size pre) (ofNat 64 (size (c :: rest))) = some (size p.dropLast)
  | rest, pre, c, n + 1, hp, hn => by
    unfold PathName.startLoop
    rw [h.getNext hp]
    cases rest with
    | nil => simp [hp]
    | cons d rest =>
      rw [if_neg (cons_ne_nil d rest)]
      exact h.startLoop rest (pre ++ [c]) d (by simpa using hp) (by simpa using hn)

theorem meets_eq_false : ∀ (q : List Component) {o N : ℕ}, o + size q ≤ N → N < 2 ^ 64 →
    Trace.meets (ofNat 64 N) o q = false
  | [], _, _, _, _ | [_], _, _, _, _ => rfl
  | c :: d :: q, o, N, hle, hN => by
    rw [size_cons, size_cons] at hle
    have hne : ofNat 64 N ≠ ofNat 64 (o + c.length + 1) := by
      intro he
      have := congrArg toNat he
      rw [toNat_ofNat, toNat_ofNat, Nat.mod_eq_of_lt hN,
        Nat.mod_eq_of_lt (by omega)] at this
      omega
    rw [Trace.meets, decide_eq_false hne, Bool.false_or]
    exact meets_eq_false (d :: q) (by rw [size_cons]; omega) hN

theorem Accepted.looks (h : Accepted b p) : Looks b p where
  next _ _ _ hp := h.getNext hp
  prev pre rest hp := by
    have hsize : size pre + size rest = size p := by rw [hp, size_append]
    have hlt := h.size_lt
    have hpre : Stored b pre := (hp ▸ h.stored).left
    rw [getPrev_eq (show size pre ≤ size p by omega)
      (fun c hc => h.fits c (hp ▸ List.mem_append_left _ hc)) hpre]
    by_cases hnil : pre = []
    · rw [if_pos (.inl hnil), hnil]
      rfl
    · have hne : ¬ ofNat 64 (size p) = 0 := by
        rw [ofNat_size_eq_zero hlt, hp, List.append_eq_nil_iff]
        exact fun he => hnil he.1
      rw [if_neg (not_or.mpr ⟨hnil, hne⟩), meets_eq_false pre (by omega) hlt]
      rfl
  start := by
    unfold getStart
    cases hp : p with
    | nil => rfl
    | cons c rest =>
      have hlt := h.size_lt
      have hlen := length_le_size rest
      rw [← hp, if_neg (by rw [ofNat_size_eq_zero hlt, hp]; exact cons_ne_nil c rest),
        toNat_size hlt]
      have hstart := h.startLoop rest [] c hp (n := size p) (by rw [hp, size_cons]; omega)
      rwa [← hp] at hstart
  startAt pre rest hp := by
    unfold getStart
    split_ifs with hz
    · rw [ofNat_size_eq_zero h.size_lt, hp, List.append_eq_nil_iff] at hz
      rw [hz.1]
      rfl
    · rfl

theorem Accepted.joins (h : Accepted b p) : Joins b p := by
  intro q bufLen hq hroom hlt
  have hmod : (size p + size q) % 2 ^ 64 = size p + size q := Nat.mod_eq_of_lt (by omega)
  have hp := stored_iff_holds.mp h.stored
  have hfits : ∀ c, c ∈ p ∨ c ∈ q → Fits c := fun c hc => hc.elim (h.fits c) (hq c)
  unfold appendPath prependPath
  rw [length_encode]
  simp only [hmod, if_neg (Nat.not_lt.mpr hroom)]
  refine ⟨⟨_, by rw [size_append], ?_, fun c hc => hfits c (mem_append.mp hc)⟩,
    ⟨_, by rw [size_append, Nat.add_comm], ?_, fun c hc => hfits c (mem_append.mp hc).symm⟩⟩
  · rw [stored_iff_holds, encode_append]
    simpa using Bytes.holds_write_append hp (encode q)
  · rw [stored_iff_holds, encode_append, Bytes.holds_append]
    refine ⟨Bytes.read_write_self _ _ _, ?_⟩
    rw [Bytes.Holds, length_encode, Nat.zero_add, length_encode,
      (Bytes.write_eqOutside _ 0 (encode q)).read (.inr (by simp)), h.stored]
    simpa using Bytes.read_write_self b (size q) (encode p)

/-- `appendComp` stores any string, and its length modulo 256. -/
theorem Accepted.appendComp (h : Accepted b p) {bufLen : ℕ} {str : List UInt8}
    (hroom : size p + str.length + 1 ≤ bufLen) (hlt : bufLen < 2 ^ 64) :
    Gives (appendComp b (size p) bufLen str) (p ++ [str]) ↔ Fits str := by
  have hmod : (size p + str.length + 1) % 2 ^ 64 = size p + str.length + 1 :=
    Nat.mod_eq_of_lt (by omega)
  unfold PathName.appendComp
  simp only [hmod, if_neg (Nat.not_lt.mpr hroom)]
  constructor
  · exact fun ⟨_, _, _, hfits⟩ => hfits str (by simp)
  · intro hstr
    refine ⟨_, by rw [size_concat, Nat.add_assoc], ?_, fun c hc => ?_⟩
    · refine (h.stored.congr fun i hi => ?_).concat (update_self ..) fun i x hx => ?_
      · rw [update_of_ne (by omega)]
        exact Bytes.write_eqOutside _ _ _ i (.inl (by omega))
      · rw [update_of_ne (by omega), Bytes.write, if_pos (by omega),
          Nat.add_sub_cancel_left, List.getD_eq_getElem?_getD, hx]
        rfl
    · rcases mem_append.mp hc with hc | hc
      · exact h.fits c hc
      · exact List.mem_singleton.mp hc ▸ hstr

/-- **Paths from a buffer.** `PathFromBuf` accepts just the well-formed paths, and reads only length
bytes. On the paths that it accepts the operations are those on lists of components, but for
`appendComp`, which is so just for strings of 1 to 255 bytes. -/
theorem pathFromBuf_operations (hnp : np ≠ 0) (hwrap : np.toNat + len.toNat < 2 ^ 64)
    (hlen : ∀ o, Visited b len.toNat o → o < 2 ^ 64) :
    (∃ r, PathFromBuf b np len = some r ∧ (r.1 = true ↔ IsPath (Bytes.read b 0 len.toNat)) ∧
      (∀ x ∈ r.2, x < len.toNat) ∧ ∀ x ∈ r.2, x = 0 ∨ ∃ y ∈ r.2, x = y + (b y).toNat + 1) ∧
    ∀ p : List Component, (∀ c ∈ p, Fits c) → encode p = Bytes.read b 0 len.toNat →
      Looks b p ∧ Joins b p ∧ ∀ bufLen str, size p + str.length + 1 ≤ bufLen → bufLen < 2 ^ 64 →
        (Gives (appendComp b (size p) bufLen str) (p ++ [str]) ↔ Fits str) := by
  constructor
  · obtain ⟨r, hr, h⟩ := checkLoop_checked (b := b) hnp hwrap hlen (len.toNat + 1) 0
      .start (Nat.lt_succ_of_le (Nat.sub_le ..))
    rw [BitVec.add_zero] at hr
    exact ⟨r, hr, by simpa using h.accepts, h.inside, h.lengths⟩
  · intro p hfits hp
    have hsize : size p = len.toNat := by
      rw [← length_encode, hp, Bytes.length_read]
    have h : Accepted b p := ⟨hfits, by rw [Stored, hsize, hp], hsize ▸ len.isLt⟩
    exact ⟨h.looks, h.joins, fun bufLen str => h.appendComp⟩

/-- The bytes of the path `ab/c`. -/
def twoComponents : Bytes.Buffer := fun i => ([2, 97, 98, 1, 99] : List UInt8).getD i 0

theorem pathFromBuf_twoComponents : getStart twoComponents 5 none = some 3 := by
  have h := (@pathFromBuf_operations twoComponents 4096 5 (by decide) (by decide)
    fun _ ho => ho.le.trans_lt (by decide)).2 [[97, 98], [99]] (by decide) (by decide)
  exact h.1.start

/-- The empty string is appended as a component without a length byte of its own. -/
theorem not_appendComp_wellFormed : ¬ ∀ (b : Bytes.Buffer) (p : List Component) (bufLen : ℕ)
    (str : List UInt8), (∀ c ∈ p, Fits c) → Stored b p → size p + str.length + 1 ≤ bufLen →
    bufLen < 2 ^ 64 → Gives (appendComp b (size p) bufLen str) (p ++ [str]) := by
  intro h
  obtain ⟨_, _, _, hfits⟩ := h (fun _ => 0) [] 1 [] nofun rfl le_rfl (by decide)
  exact absurd (hfits [] mem_cons_self) (by decide)

end K42.PathName

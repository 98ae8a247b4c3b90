import K42.Lib.Components
import K42.Sys.SysStatus

/-!
# Path names

A path name is a list of components, each stored behind a byte with its length. `Create` scans a
Unix path into a buffer that begins with a start path; `getUPath` writes a path name as a Unix
path.

The unread part of a Unix path is a list of characters, followed by the terminating null.
-/

open Function (update update_of_ne update_self)
open List (mem_cons_self mem_cons_of_mem not_mem_nil length_append length_cons cons_ne_nil)

namespace K42

open Components

namespace PathName

abbrev slash : UInt8 := 47

abbrev dot : UInt8 := 46

/-- Why `Create` fails: an access outside the buffer or through a null pointer, a component that
is too long, or a buffer that is too small. -/
inductive CreateError
  | fault | tooLong | overrun
deriving DecidableEq

/-- The buffer of `np`. -/
structure Buf where
  bytes : Bytes.Buffer
  size : ℕ

namespace Buf

variable (b : Buf)

def read (i : ℕ) : Except CreateError UInt8 :=
  if i < b.size then .ok (b.bytes i) else .error .fault

def set (i : ℕ) (x : UInt8) : Except CreateError Buf :=
  if i < b.size then .ok { b with bytes := update b.bytes i x } else .error .fault

/-- `memcpy` to the start of the buffer. -/
def copy (bs : List UInt8) : Except CreateError Buf :=
  if bs.length ≤ b.size then .ok { b with bytes := Bytes.write b.bytes 0 bs } else .error .fault

end Buf

/-! ## The previous component -/

/-- The loop of `getPrev`, at `tmp`, for the component before `p`; it returns null when the
remaining length has become zero. Each turn moves `tmp`, so that a turn for each byte is enough. -/
def prevLoop (np : Buf) (p : ℕ) : ℕ → ℕ → BitVec 64 → Option ℕ
  | 0, _, _ => none
  | n + 1, tmp, thisLen =>
    match np.read tmp with
    | .error _ => none
    | .ok nmLen =>
      if tmp + nmLen.toNat + 1 = p then some tmp
      else
        let remLen := thisLen - (BitVec.ofNat 64 nmLen.toNat + 1)
        if remLen = 0 then none else prevLoop np p n (tmp + nmLen.toNat + 1) remLen

def getPrev (np : Buf) (thisLen : BitVec 64) (p : ℕ) : Option ℕ :=
  if p = 0 then some 0
  else if thisLen = 0 then some 0
  else prevLoop np p (np.size + 1) 0 thisLen

/-! ## `Create` -/

/-- The variables of `Create`; `frp` is the rest of the Unix path, and `len` its length. -/
structure Scan where
  np : Buf
  npLen : BitVec 64
  ptr : ℕ
  frp : List UInt8

namespace Scan

/-- The character at `frp + i`. -/
def char (frp : List UInt8) (i : ℕ) : UInt8 := frp.getD i 0

/-- Pop off an element. -/
def pop (s : Scan) : Except CreateError Scan :=
  match getPrev s.np s.npLen s.ptr with
  | none => .error .fault
  | some ptr => do
    let nmLen ← s.np.read ptr
    .ok { s with ptr := ptr, npLen := s.npLen - (BitVec.ofNat 64 nmLen.toNat - 1) }

def dots (s : Scan) : Except CreateError Scan :=
  if char s.frp 0 = dot then
    if char s.frp 1 = 0 then .ok { s with frp := s.frp.drop 1 }
    else if char s.frp 1 = slash then .ok { s with frp := s.frp.drop 2 }
    else if char s.frp 1 = dot ∧ char s.frp 2 = 0 ∨ char s.frp 2 = slash then
      pop { s with frp := s.frp.drop 2 }
    else .ok s
  else .ok s

/-- One turn of the loop over dots and slashes. -/
def noise (s : Scan) : Except CreateError Scan := do
  let s ← s.dots
  if s.frp ≠ [] ∧ char s.frp 0 = slash then .ok { s with frp := s.frp.drop 1 } else .ok s

/-- The loop goes on as long as it takes characters, so that a turn for each is enough. -/
def skipNoise : ℕ → Scan → Except CreateError Scan
  | 0, _ => .error .fault
  | n + 1, s => do
    let u ← s.noise
    if u.frp ≠ [] ∧ u.frp.length ≠ s.frp.length then skipNoise n u else .ok u

/-- The characters of a component go to `top`, and are counted at `ptr`. -/
def copyName (ptr : ℕ) : List UInt8 → Buf → ℕ → Except CreateError (Buf × List UInt8)
  | [], np, _ => .ok (np, [])
  | x :: frp, np, top =>
    if x = slash then .ok (np, x :: frp)
    else if 254 < (np.bytes ptr).toNat then .error .tooLong
    else if np.size ≤ top then .error .overrun
    else do
      let np ← np.set top x
      let np ← np.set ptr (np.bytes ptr + 1)
      copyName ptr frp np (top + 1)

/-- Get prepared for the next component. -/
def prepare (s : Scan) : Except CreateError Scan :=
  if s.frp = [] then .ok s
  else if s.np.size ≤ s.ptr then .error .overrun
  else do
    let np ← s.np.set s.ptr 0
    .ok { s with np := np }

def component (s : Scan) : Except CreateError Scan :=
  if s.np.size ≤ s.ptr then .error .overrun
  else do
    let np ← s.np.set s.ptr 0
    let (np, frp) ← copyName s.ptr s.frp np (s.ptr + 1)
    let nmLen := (np.bytes s.ptr).toNat
    if nmLen = 0 then .ok { s with np := np, frp := frp }
    else
      prepare
        { np := np
          npLen := s.npLen + BitVec.ofNat 64 nmLen + 1
          ptr := s.ptr + nmLen + 1
          frp := frp }

/-- The loop over the components. -/
def scan : ℕ → Scan → Except CreateError Scan
  | 0, _ => .error .fault
  | n + 1, s =>
    if s.frp = [] then .ok s
    else do
      let s ← s.skipNoise (s.frp.length + 1)
      if s.frp = [] then .ok s
      else do
        let s ← s.component
        scan n s

end Scan

/-- The path name at `np`, if there is one, and its length. -/
abbrev Created := Option Buf × ℕ

/-- The start path is copied, and the Unix path scanned; `junk` is what the memory of the buffer
holds. -/
def scanned (junk : Bytes.Buffer) (unixPath start : List UInt8) (expectedSize : ℕ) :
    Except CreateError Scan := do
  let np ← Buf.set ⟨junk, expectedSize⟩ 0 0
  let np ← np.copy start
  Scan.scan (unixPath.length + 1) ⟨np, BitVec.ofNat 64 start.length, start.length, unixPath⟩

/-- The buffer that is returned. -/
def returned (bufLen expectedSize : ℕ) : Except CreateError Scan → Except CreateError Created
  | .ok s =>
    if bufLen = 0 ∧ s.ptr < expectedSize then
      if s.ptr ≠ 0 then .ok (some ⟨s.np.bytes, s.ptr⟩, s.ptr) else .ok (none, s.ptr)
    else .ok (some s.np, s.ptr)
  | .error .fault => .error .fault
  | .error _ => .ok (none, 0)

def Create (junk : Bytes.Buffer) (unixPath start : List UInt8) (bufLen : ℕ) :
    Except CreateError Created :=
  if bufLen ≠ 0 ∧ (bufLen < start.length ∨ bufLen ≤ unixPath.length) then .ok (none, 0)
  else
    let expectedSize := if bufLen ≠ 0 then bufLen else unixPath.length + 1 + start.length
    returned bufLen expectedSize (scanned junk unixPath start expectedSize)

/-! ## `getUPath` -/

/-- What a component of a Unix path does to a path: an empty one and a dot are dropped, and a pair
of dots removes the last component. -/
def lexicalStep (p : List Component) (c : Component) : List Component :=
  if c = [] ∨ c = [dot] then p
  else if c = [dot, dot] then p.dropLast
  else p ++ [c]

def lexical (start : List Component) (cs : List Component) : List Component :=
  cs.foldl lexicalStep start

/-- The lexical path is empty before, between or after the components. -/
def Emptied : List Component → List Component → Prop
  | p, [] => p = []
  | p, c :: cs => p = [] ∨ Emptied (lexicalStep p c) cs

instance Emptied.decidable : ∀ p cs : List Component, Decidable (Emptied p cs)
  | p, [] => inferInstanceAs (Decidable (p = []))
  | p, c :: cs =>
    have := Emptied.decidable (lexicalStep p c) cs
    inferInstanceAs (Decidable (p = [] ∨ Emptied (lexicalStep p c) cs))

/-- Components of 1 to 255 characters. -/
def WellFormed (p : List Component) : Prop := ∀ c ∈ p, Fits c ∧ 0 ∉ c

/-! ## What `Create` does to the components -/

/-- The path so far, the running length, and the first byte of the buffer. -/
structure Trace where
  path : List Component
  npLen : BitVec 64
  first : UInt8
deriving DecidableEq

namespace Trace

/-- The running length is the offset of a component behind the one at `o`. -/
def meets (npLen : BitVec 64) : ℕ → List Component → Bool
  | o, c :: d :: p =>
    npLen = BitVec.ofNat 64 (o + c.length + 1) || meets npLen (o + c.length + 1) (d :: p)
  | _, _ => false

/-- The running length after an element of length `nmLen` has been popped off. -/
def shorten (npLen : BitVec 64) (nmLen : UInt8) : BitVec 64 :=
  npLen - (BitVec.ofNat 64 nmLen.toNat - 1)

/-- The pop of `Create`: with no component nothing is removed, with a running length of zero
everything, and with a running length that is the offset of a component it fails. -/
def pop (t : Trace) : Option Trace :=
  if t.path = [] then some { t with npLen := shorten t.npLen t.first }
  else if t.npLen = 0 then some { t with path := [], npLen := shorten t.npLen t.first }
  else if meets t.npLen 0 t.path then none
  else
    some { t with
      path := t.path.dropLast
      npLen := shorten t.npLen (UInt8.ofNat (t.path.getLastD []).length) }

def append (t : Trace) (c : Component) : Trace where
  path := t.path ++ [c]
  npLen := t.npLen + BitVec.ofNat 64 c.length + 1
  first := if t.path = [] then UInt8.ofNat c.length else t.first

/-- The components that `Create` takes for a pair of dots; `last` says that no slash follows. -/
def Pops (c : Component) (last : Bool) : Prop :=
  c = [dot, dot] ∨ last = false ∧ c.length = 2 ∧ c.head? = some dot

instance (c : Component) (last : Bool) : Decidable (Pops c last) :=
  inferInstanceAs (Decidable (_ ∨ _))

def next (t : Trace) (c : Component) (last : Bool) : Option Trace :=
  if c = [] ∨ c = [dot] then some t
  else if Pops c last then t.pop
  else some (t.append c)

def run : Trace → List Component → Option Trace
  | t, [] => some t
  | t, [c] => t.next c true
  | t, c :: d :: cs => (t.next c false).bind fun t => run t (d :: cs)

/-- The pop of `Create` looks for the last component, and the running length is the offset of
another one. -/
def Misses (t : Trace) : Prop := t.npLen ≠ 0 ∧ meets t.npLen 0 t.path = true

instance (t : Trace) : Decidable t.Misses := inferInstanceAs (Decidable (_ ∧ _))

/-- What is popped off is not what the component removes: the component is no pair of dots, or the
running length is zero and there are several components. -/
def Missteps (t : Trace) (c : Component) : Prop :=
  c ≠ [dot, dot] ∨ t.npLen = 0 ∧ 2 ≤ t.path.length

instance (t : Trace) (c : Component) : Decidable (t.Missteps c) :=
  inferInstanceAs (Decidable (_ ∨ _))

/-- No pop misses the last component, and after a misstep the components that follow bring the
lexical path `p` to the empty one. -/
def Benign : List Component → Trace → List Component → Prop
  | _, _, [] => True
  | p, t, c :: cs =>
    (c ≠ [] → c ≠ [dot] → Pops c cs.isEmpty →
      ¬ t.Misses ∧ (t.Missteps c → Emptied (lexicalStep p c) cs)) ∧
    ∀ u ∈ t.next c cs.isEmpty, Benign (lexicalStep p c) u cs

instance Benign.decidable :
    ∀ (p : List Component) (t : Trace) (cs : List Component), Decidable (Benign p t cs)
  | _, _, [] => isTrue trivial
  | p, t, c :: cs =>
    have := fun u => Benign.decidable (lexicalStep p c) u cs
    inferInstanceAs (Decidable ((c ≠ [] → c ≠ [dot] → Pops c cs.isEmpty →
      ¬ t.Misses ∧ (t.Missteps c → Emptied (lexicalStep p c) cs)) ∧
      ∀ u ∈ t.next c cs.isEmpty, Benign (lexicalStep p c) u cs))

end Trace

/-- The state of `Create` after the start path has been copied. -/
def begin (start : List Component) : Trace where
  path := start
  npLen := BitVec.ofNat 64 (size start)
  first := match start with
    | [] => 0
    | c :: _ => UInt8.ofNat c.length

/-! ## The previous component -/

section Proofs

variable {np : Buf} {path p : List Component} {c : Component} {npLen : BitVec 64}

theorem read_of_lt {i : ℕ} (h : i < np.size) : np.read i = .ok (np.bytes i) := if_pos h

theorem set_of_lt {i : ℕ} {x : UInt8} (h : i < np.size) :
    np.set i x = .ok { np with bytes := update np.bytes i x } := if_pos h

theorem ofNat_succ_length (c : Component) (o : ℕ) :
    npLen - BitVec.ofNat 64 o - (BitVec.ofNat 64 c.length + 1) =
      npLen - BitVec.ofNat 64 (o + c.length + 1) := by
  have hadd : BitVec.ofNat 64 (o + c.length + 1) =
      BitVec.ofNat 64 o + (BitVec.ofNat 64 c.length + 1) := by
    rw [Nat.add_assoc, BitVec.ofNat_add, BitVec.ofNat_add]
    rfl
  rw [hadd]
  bv_omega

theorem prevLoop_eq (hsize : size path ≤ np.size) (hfits : ∀ c ∈ path, Fits c) :
    ∀ (rest pre : List Component) {n : ℕ}, path = pre ++ rest → rest ≠ [] →
      Stored np.bytes path → rest.length < n →
      prevLoop np (size path) n (size pre) (npLen - BitVec.ofNat 64 (size pre)) =
        if Trace.meets npLen (size pre) rest then none else some (size path.dropLast) := by
  intro rest
  induction rest with
  | nil => exact fun _ _ _ hne => absurd rfl hne
  | cons c rest ih =>
    intro pre n hpath _ hstored hn
    obtain ⟨n, rfl⟩ := Nat.exists_eq_succ_of_ne_zero (Nat.ne_zero_of_lt hn)
    have hc : Fits c := by
      apply hfits
      rw [hpath]
      exact List.mem_append_right _ mem_cons_self
    have hlt : size pre < np.size := by
      refine lt_of_lt_of_le ?_ hsize
      rw [hpath, size_append, size_cons]
      omega
    have hread : np.read (size pre) = .ok (UInt8.ofNat c.length) := by
      have hsplit : Stored np.bytes (pre ++ c :: rest) := hpath ▸ hstored
      rw [read_of_lt hlt, hsplit.length]
    have hnext : size (pre ++ [c]) = size pre + c.length + 1 := by
      rw [size_concat]
      rfl
    unfold prevLoop
    rw [hread]
    dsimp only
    rw [toNat_length hc]
    cases rest with
    | nil =>
      -- the component ends the path
      have hend : size pre + c.length + 1 = size path := by
        rw [hpath, hnext]
      rw [if_pos hend, if_neg (by exact Bool.false_ne_true), hpath, List.dropLast_concat]
    | cons d rest =>
      have hmore : size pre + c.length + 1 ≠ size path := by
        rw [hpath, size_append, size_cons, size_cons]
        omega
      rw [if_neg hmore, ofNat_succ_length]
      unfold Trace.meets
      by_cases hmeets : npLen = BitVec.ofNat 64 (size pre + c.length + 1)
      · have hzero : npLen - BitVec.ofNat 64 (size pre + c.length + 1) = 0 := by
          rw [← hmeets]
          exact BitVec.sub_self _
        rw [if_pos hzero, if_pos (by rw [decide_eq_true hmeets]; rfl)]
      · have hne : npLen - BitVec.ofNat 64 (size pre + c.length + 1) ≠ 0 := by
          intro hzero
          apply hmeets
          bv_omega
        rw [if_neg hne, ← hnext, decide_eq_false (by rw [hnext]; exact hmeets), Bool.false_or]
        refine ih _ ?_ (cons_ne_nil _ _) hstored (Nat.lt_of_succ_lt_succ hn)
        rw [hpath, List.append_assoc]
        rfl

theorem getPrev_eq (hsize : size path ≤ np.size) (hfits : ∀ c ∈ path, Fits c)
    (hstored : Stored np.bytes path) :
    getPrev np npLen (size path) =
      if path = [] ∨ npLen = 0 then some 0
      else if Trace.meets npLen 0 path then none else some (size path.dropLast) := by
  unfold getPrev
  by_cases hpath : path = []
  · rw [if_pos (size_eq_zero.2 hpath), if_pos (.inl hpath)]
  · rw [if_neg (mt size_eq_zero.1 hpath)]
    by_cases hzero : npLen = 0
    · rw [if_pos hzero, if_pos (.inr hzero)]
    · rw [if_neg hzero, if_neg (not_or.2 ⟨hpath, hzero⟩)]
      have hlength : path.length < np.size + 1 :=
        lt_of_le_of_lt (length_le_size path) (Nat.lt_succ_of_le hsize)
      have hloop : prevLoop np (size path) (np.size + 1) 0 (npLen - 0#64) = _ :=
        prevLoop_eq hsize hfits path [] rfl hpath hstored hlength
      rw [BitVec.sub_zero] at hloop
      exact hloop

/-! ## Pieces of a Unix path -/

variable {frp rest : List UInt8} {t t' : Trace}

/-- The first piece of what is left, and the rest, which is empty or begins with a slash. -/
structure Split (frp : List UInt8) (c : Component) (rest : List UInt8) : Prop where
  eq : frp = c ++ rest
  free : slash ∉ c
  slashed : rest = [] ∨ ∃ r, rest = slash :: r

theorem exists_split (frp : List UInt8) : ∃ c rest, Split frp c rest := by
  induction frp with
  | nil => exact ⟨[], [], rfl, not_mem_nil, .inl rfl⟩
  | cons x frp ih =>
    by_cases hx : x = slash
    · subst hx
      exact ⟨[], slash :: frp, rfl, not_mem_nil, .inr ⟨frp, rfl⟩⟩
    · obtain ⟨c, rest, heq, hfree, hslashed⟩ := ih
      refine ⟨x :: c, rest, by rw [heq]; rfl, ?_, hslashed⟩
      rintro (_ | ⟨_, hmem⟩)
      · exact hx rfl
      · exact hfree hmem

/-- The pieces behind the first one. -/
def after : List UInt8 → List Component
  | [] => []
  | _ :: r => r.splitOn slash

theorem Split.pieces (h : Split frp c rest) : frp.splitOn slash = c :: after rest := by
  rw [h.eq]
  rcases h.slashed with rfl | ⟨r, rfl⟩
  · rw [List.append_nil]
    exact List.splitOn_eq_singleton h.free
  · exact List.splitOn_append_cons_self_of_not_mem h.free r

theorem isEmpty_after (h : Split frp c rest) : (after rest).isEmpty = rest.isEmpty := by
  rcases h.slashed with rfl | ⟨r, rfl⟩
  · rfl
  · exact List.isEmpty_eq_false_iff.2 (List.splitOn_ne_nil slash r)

/-- No null, and no component that is too long. -/
structure Input (frp : List UInt8) : Prop where
  nul : 0 ∉ frp
  short : ∀ c ∈ frp.splitOn slash, c.length ≤ 255

variable {r unixPath : List UInt8} {junk : Bytes.Buffer} {start : List Component} {bufLen : ℕ}

theorem Input.drop (h : Input (slash :: r)) : Input r where
  nul := fun hmem => h.nul (mem_cons_of_mem _ hmem)
  short := by
    intro c hc
    apply h.short
    have hpieces : (slash :: r).splitOn slash = [] :: r.splitOn slash :=
      List.splitOn_append_cons_self_of_not_mem not_mem_nil r
    rw [hpieces]
    exact mem_cons_of_mem _ hc

theorem Input.behind (h : Input frp) (hsplit : Split frp c rest) : Input rest where
  nul := by
    intro hmem
    apply h.nul
    rw [hsplit.eq]
    exact List.mem_append_right _ hmem
  short := by
    intro d hd
    rcases hsplit.slashed with rfl | ⟨r, rfl⟩
    · rw [List.splitOn_nil, List.mem_singleton] at hd
      rw [hd]
      exact Nat.zero_le _
    · have hpieces : (slash :: r).splitOn slash = [] :: r.splitOn slash :=
        List.splitOn_append_cons_self_of_not_mem not_mem_nil r
      rw [hpieces] at hd
      rcases List.mem_cons.1 hd with rfl | hd
      · exact Nat.zero_le _
      · apply h.short
        rw [hsplit.pieces]
        exact mem_cons_of_mem _ hd

namespace Trace

theorem run_cons (t : Trace) (c : Component) (cs : List Component) :
    t.run (c :: cs) = (t.next c cs.isEmpty).bind fun u => u.run cs := by
  cases cs with
  | nil =>
    change t.next c true = (t.next c true).bind some
    cases t.next c true <;> rfl
  | cons d cs => rfl

theorem next_noise (h : c = [] ∨ c = [dot]) (last : Bool) : t.next c last = some t := if_pos h

theorem run_nil_cons (t : Trace) (cs : List Component) : t.run ([] :: cs) = t.run cs := by
  rw [run_cons, next_noise (.inl rfl)]
  rfl

theorem run_slash (t : Trace) (r : List UInt8) :
    t.run ((slash :: r).splitOn slash) = t.run (r.splitOn slash) := by
  have hpieces : (slash :: r).splitOn slash = [] :: r.splitOn slash :=
    List.splitOn_append_cons_self_of_not_mem not_mem_nil r
  rw [hpieces, run_nil_cons]

theorem run_nil (t : Trace) : t.run (([] : List UInt8).splitOn slash) = some t := by
  rw [List.splitOn_nil, run_cons, next_noise (.inl rfl)]
  rfl

theorem run_rest (h : Split frp c rest) (t : Trace) :
    t.run (rest.splitOn slash) = t.run (after rest) := by
  rcases h.slashed with rfl | ⟨r, rfl⟩
  · exact run_nil t
  · exact run_slash t r

theorem run_split (h : Split frp c rest) (t : Trace) :
    t.run (frp.splitOn slash) =
      (t.next c rest.isEmpty).bind fun u => u.run (rest.splitOn slash) := by
  rw [h.pieces, run_cons, isEmpty_after h]
  congr
  funext u
  exact (run_rest h u).symm

end Trace

/-! ## The scan follows the trace -/

/-- The bytes that the rest of a Unix path can need, with the length byte that is prepared. -/
def need : List UInt8 → ℕ
  | [] => 0
  | x :: r => if x = slash then r.length + 1 else r.length + 2

theorem length_le_need (frp : List UInt8) : frp.length ≤ need frp := by
  cases frp with
  | nil => exact le_rfl
  | cons x r =>
    change r.length + 1 ≤ if x = slash then r.length + 1 else r.length + 2
    split <;> omega

theorem need_le (frp : List UInt8) : need frp ≤ frp.length + 1 := by
  cases frp with
  | nil => exact Nat.zero_le _
  | cons x r =>
    change (if x = slash then r.length + 1 else r.length + 2) ≤ r.length + 1 + 1
    split <;> omega

structure Sim (N : ℕ) (s : Scan) (t : Trace) : Prop where
  size : s.np.size = N
  pos : 0 < N
  ptr : s.ptr = Components.size t.path
  npLen : s.npLen = t.npLen
  stored : Stored s.np.bytes t.path
  first : s.np.bytes 0 = t.first
  fits : ∀ c ∈ t.path, Fits c
  room : s.ptr + need s.frp ≤ N

variable {N : ℕ} {s u : Scan}

theorem Sim.skip (h : Sim N s t) (hneed : need frp ≤ need s.frp) :
    Sim N { s with frp := frp } t :=
  { h with room := le_trans (Nat.add_le_add_left hneed _) h.room }

theorem Sim.skip_shorter (h : Sim N s t) (hlt : frp.length < s.frp.length) :
    Sim N { s with frp := frp } t :=
  h.skip (le_trans (need_le frp) (le_trans hlt (length_le_need s.frp)))

theorem Sim.size_le (h : Sim N s t) : Components.size t.path ≤ s.np.size := by
  rw [← h.ptr, h.size]
  exact le_trans (Nat.le_add_right _ _) h.room

/-- The place and the running length after an element has been popped off. -/
def Scan.popped (s : Scan) (ptr : ℕ) (nmLen : UInt8) : Scan :=
  { s with ptr := ptr, npLen := Trace.shorten s.npLen nmLen }

theorem pop_eq {q : ℕ} (hprev : getPrev s.np s.npLen s.ptr = some q) (hq : q < s.np.size) :
    s.pop = .ok (s.popped q (s.np.bytes q)) := by
  unfold Scan.pop
  rw [hprev]
  dsimp only
  rw [read_of_lt hq]
  rfl

theorem Sim.getPrev (h : Sim N s t) : getPrev s.np s.npLen s.ptr =
    if t.path = [] ∨ t.npLen = 0 then some 0
    else if Trace.meets t.npLen 0 t.path then none
    else some (Components.size t.path.dropLast) := by
  rw [h.ptr, h.npLen]
  exact getPrev_eq h.size_le h.fits h.stored

theorem Sim.pop_none (h : Sim N s t) (ht : t.pop = none) : s.pop = .error .fault := by
  have hprev : PathName.getPrev s.np s.npLen s.ptr = none := by
    rw [h.getPrev]
    unfold Trace.pop at ht
    split_ifs at ht with hpath hzero hmeets
    rw [if_neg (not_or.2 ⟨hpath, hzero⟩), if_pos hmeets]
  unfold Scan.pop
  rw [hprev]

theorem Sim.pop_all (h : Sim N s t) (hprev : PathName.getPrev s.np s.npLen s.ptr = some 0) :
    ∃ u, s.pop = .ok u ∧
      Sim N u { t with path := [], npLen := Trace.shorten t.npLen t.first } ∧ u.frp = s.frp := by
  have hpos : 0 < s.np.size := by
    rw [h.size]
    exact h.pos
  refine ⟨_, pop_eq hprev hpos, ?_, rfl⟩
  refine ⟨h.size, h.pos, rfl, ?_, stored_nil _, h.first, nofun, ?_⟩
  · change Trace.shorten s.npLen (s.np.bytes 0) = Trace.shorten t.npLen t.first
    rw [h.npLen, h.first]
  · exact le_trans (Nat.add_le_add_right (Nat.zero_le _) _) h.room

theorem Sim.pop_some (h : Sim N s t) (ht : t.pop = some t') :
    ∃ u, s.pop = .ok u ∧ Sim N u t' ∧ u.frp = s.frp := by
  have hprev := h.getPrev
  unfold Trace.pop at ht
  split_ifs at ht with hpath hzero hmeets
  · rw [if_pos (.inl hpath)] at hprev
    cases ht
    obtain ⟨u, hu, hsim, hfrp⟩ := h.pop_all hprev
    refine ⟨u, hu, ?_, hfrp⟩
    rw [show { t with npLen := Trace.shorten t.npLen t.first } =
      ({ t with path := [], npLen := Trace.shorten t.npLen t.first } : Trace) by rw [← hpath]]
    exact hsim
  · rw [if_pos (.inr hzero)] at hprev
    cases ht
    exact h.pop_all hprev
  · rw [if_neg (not_or.2 ⟨hpath, hzero⟩), if_neg hmeets] at hprev
    cases ht
    obtain ⟨q, c, hpathq⟩ := (List.eq_nil_or_concat' t.path).resolve_left hpath
    have hdrop : t.path.dropLast = q := by
      rw [hpathq, List.dropLast_concat]
    have hlast : t.path.getLastD [] = c := by
      rw [hpathq, List.getLastD_concat]
    have hstored : Stored s.np.bytes (q ++ [c]) := hpathq ▸ h.stored
    have hle : Components.size q + (c.length + 1) ≤ s.np.size := by
      rw [← size_concat, ← hpathq]
      exact h.size_le
    rw [hdrop] at hprev
    refine ⟨_, pop_eq hprev (by omega), ?_, rfl⟩
    refine ⟨h.size, h.pos, ?_, ?_, ?_, h.first, ?_, ?_⟩
    · change Components.size q = Components.size t.path.dropLast
      rw [hdrop]
    · change Trace.shorten s.npLen (s.np.bytes (Components.size q)) =
        Trace.shorten t.npLen (UInt8.ofNat (t.path.getLastD []).length)
      rw [h.npLen, hstored.length, hlast]
    · change Stored s.np.bytes t.path.dropLast
      rw [hdrop]
      exact hstored.left
    · intro d hd
      exact h.fits d ((List.dropLast_sublist _).mem hd)
    · change Components.size q + need s.frp ≤ N
      have hroom := h.room
      rw [h.ptr, hpathq, size_concat] at hroom
      omega

/-! ### Dots and slashes -/

/-- What is neither noise nor popped off. -/
structure Real (frp : List UInt8) : Prop where
  ne_nil : frp ≠ []
  piece : ∀ c rest, Split frp c rest → c ≠ [] ∧ c ≠ [dot] ∧ ¬ Trace.Pops c rest.isEmpty

theorem Split.unique {d : Component} {rest' : List UInt8} (h : Split frp c rest)
    (h' : Split frp d rest') : c = d ∧ rest = rest' := by
  induction c generalizing frp d with
  | nil =>
    cases d with
    | nil => exact ⟨rfl, h.eq.symm.trans h'.eq⟩
    | cons y d =>
      have heq : rest = y :: d ++ rest' := h.eq.symm.trans h'.eq
      rcases h.slashed with rfl | ⟨r, rfl⟩
      · cases heq
      · cases heq
        exact absurd mem_cons_self h'.free
  | cons x c ih =>
    cases d with
    | nil =>
      have heq : x :: c ++ rest = rest' := h.eq.symm.trans h'.eq
      rcases h'.slashed with rfl | ⟨r, rfl⟩
      · cases heq
      · cases heq
        exact absurd mem_cons_self h.free
    | cons y d =>
      have heq : x :: (c ++ rest) = y :: (d ++ rest') := h.eq.symm.trans h'.eq
      obtain ⟨rfl, htail⟩ := List.cons.inj heq
      have hfree : slash ∉ c := fun hmem => h.free (mem_cons_of_mem _ hmem)
      have hfree' : slash ∉ d := fun hmem => h'.free (mem_cons_of_mem _ hmem)
      obtain ⟨rfl, hrest⟩ := ih ⟨rfl, hfree, h.slashed⟩ ⟨htail, hfree', h'.slashed⟩
      exact ⟨rfl, hrest⟩

theorem dots_of_ne (h : Scan.char s.frp 0 ≠ dot) : s.dots = .ok s := if_neg h

/-- A piece that begins with a dot and goes on: its second character is neither a
slash nor the end. -/
theorem dots_of_dot (hinput : Input s.frp) (hsplit : Split s.frp (dot :: x :: c) rest) :
    s.dots = if x = dot ∧ Scan.char (c ++ rest) 0 = 0 ∨ Scan.char (c ++ rest) 0 = slash then
      Scan.pop { s with frp := c ++ rest } else .ok s := by
  have hchar : s.frp = dot :: x :: (c ++ rest) := hsplit.eq
  have hnul : x ≠ 0 := by
    rintro rfl
    apply hinput.nul
    rw [hchar]
    exact mem_cons_of_mem _ mem_cons_self
  have hslash : x ≠ slash := by
    rintro rfl
    exact hsplit.free (mem_cons_of_mem _ mem_cons_self)
  unfold Scan.dots
  rw [hchar]
  change (if x = 0 then _ else if x = slash then _ else _) = _
  rw [if_neg hnul, if_neg hslash]
  rfl

theorem dots_of_pops (hinput : Input s.frp) (hsplit : Split s.frp c rest)
    (hpops : Trace.Pops c rest.isEmpty) : s.dots = Scan.pop { s with frp := rest } := by
  obtain ⟨x, rfl, hx⟩ : ∃ x, c = [dot, x] ∧ (rest = [] → x = dot) := by
    rcases hpops with rfl | ⟨hlast, hlength, hhead⟩
    · exact ⟨dot, rfl, fun _ => rfl⟩
    · obtain ⟨y, x, rfl⟩ := List.length_eq_two.1 hlength
      cases hhead
      refine ⟨x, rfl, ?_⟩
      rintro rfl
      cases hlast
  have hthird : x = dot ∧ Scan.char rest 0 = 0 ∨ Scan.char rest 0 = slash := by
    rcases hsplit.slashed with rfl | ⟨r, rfl⟩
    · exact .inl ⟨hx rfl, rfl⟩
    · exact .inr rfl
  exact (dots_of_dot hinput hsplit).trans (if_pos hthird)

theorem dots_of_real (hinput : Input s.frp) (hreal : Real s.frp) : s.dots = .ok s := by
  obtain ⟨c, rest, hsplit⟩ := exists_split s.frp
  obtain ⟨hne, hdot, hpops⟩ := hreal.piece c rest hsplit
  by_cases hfirst : Scan.char s.frp 0 = dot
  · obtain ⟨x, c, rfl⟩ : ∃ x d, c = dot :: x :: d := by
      cases c with
      | nil => exact absurd rfl hne
      | cons y c =>
        rw [hsplit.eq] at hfirst
        have hy : y = dot := hfirst
        subst hy
        cases c with
        | nil => exact absurd rfl hdot
        | cons x c => exact ⟨x, c, rfl⟩
    have hthird : ¬ (x = dot ∧ Scan.char (c ++ rest) 0 = 0 ∨ Scan.char (c ++ rest) 0 = slash) := by
      cases c with
      | nil =>
        rcases hsplit.slashed with rfl | ⟨r, rfl⟩
        · rintro (⟨rfl, -⟩ | hslashed)
          · exact hpops (.inl rfl)
          · cases hslashed
        · exact absurd (.inr ⟨rfl, rfl, rfl⟩) hpops
      | cons y c =>
        rintro (⟨-, hy⟩ | hy)
        · have hzero : y = 0 := hy
          apply hinput.nul
          rw [hsplit.eq, hzero]
          exact mem_cons_of_mem _ (mem_cons_of_mem _ mem_cons_self)
        · have hys : y = slash := hy
          apply hsplit.free
          rw [hys]
          exact mem_cons_of_mem _ (mem_cons_of_mem _ mem_cons_self)
    exact (dots_of_dot hinput hsplit).trans (if_neg hthird)
  · exact dots_of_ne hfirst

theorem noise_slash (hdots : s.dots = .ok u) (hu : u.frp = slash :: r) :
    s.noise = .ok { u with frp := r } := by
  unfold Scan.noise
  rw [hdots]
  change (if u.frp ≠ [] ∧ Scan.char u.frp 0 = slash then _ else _) = _
  rw [if_pos ⟨by rw [hu]; exact cons_ne_nil _ _, by rw [hu]; rfl⟩, hu]
  rfl

theorem noise_other (hdots : s.dots = .ok u) (hu : u.frp ≠ [] → Scan.char u.frp 0 ≠ slash) :
    s.noise = .ok u := by
  unfold Scan.noise
  rw [hdots]
  change (if u.frp ≠ [] ∧ Scan.char u.frp 0 = slash then _ else _) = _
  rw [if_neg fun h => hu h.1 h.2]

/-- What a turn of the loop over dots and slashes does. -/
def Turns (N : ℕ) (s : Scan) (t : Trace) : Prop :=
  (s.noise = .error .fault ∧ t.run (s.frp.splitOn slash) = none) ∨
    ∃ u t', s.noise = .ok u ∧ Sim N u t' ∧ Input u.frp ∧
      t.run (s.frp.splitOn slash) = t'.run (u.frp.splitOn slash) ∧
      (u.frp.length < s.frp.length ∨ u = s ∧ t' = t ∧ Real s.frp)

theorem turns_of_piece (hinput : Input s.frp) (hsplit : Split s.frp c rest) (hc : c ≠ [])
    (hdots : s.dots = .ok u) (hu : u.frp = rest) (hsim : Sim N u t')
    (hrun : t.run (s.frp.splitOn slash) = t'.run (rest.splitOn slash)) : Turns N s t := by
  have hlength : rest.length < s.frp.length := by
    rw [hsplit.eq, length_append]
    exact Nat.lt_add_of_pos_left (List.length_pos_iff.2 hc)
  have hbehind := hinput.behind hsplit
  rcases hsplit.slashed with rfl | ⟨r, rfl⟩
  · refine .inr ⟨u, t', noise_other hdots fun hne => absurd hu hne, hsim, ?_, ?_, .inl ?_⟩
    · rw [hu]
      exact hbehind
    · rw [hu]
      exact hrun
    · rw [hu]
      exact hlength
  · refine .inr ⟨{ u with frp := r }, t', noise_slash hdots hu, ?_, hbehind.drop, ?_, .inl ?_⟩
    · apply hsim.skip_shorter
      rw [hu]
      exact Nat.lt_succ_self _
    · rw [hrun]
      exact Trace.run_slash t' r
    · exact lt_trans (Nat.lt_succ_self _) hlength

theorem turns_slash (h : Sim N s t) (hinput : Input s.frp)
    (hfrp : s.frp = slash :: r) : Turns N s t := by
  have hdots : s.dots = .ok s := by
    apply dots_of_ne
    rw [hfrp]
    exact (by decide : slash ≠ dot)
  refine .inr ⟨{ s with frp := r }, t, noise_slash hdots hfrp, ?_, ?_, ?_, .inl ?_⟩
  · apply h.skip_shorter
    rw [hfrp]
    exact Nat.lt_succ_self _
  · rw [hfrp] at hinput
    exact hinput.drop
  · rw [hfrp]
    exact Trace.run_slash t r
  · rw [hfrp]
    exact Nat.lt_succ_self _

theorem turns_dot (h : Sim N s t) (hinput : Input s.frp) (hsplit : Split s.frp [dot] rest) :
    Turns N s t := by
  have hshorter : rest.length < s.frp.length := by
    rw [hsplit.eq]
    exact Nat.lt_succ_self _
  have hrun : t.run (s.frp.splitOn slash) = t.run (rest.splitOn slash) := by
    rw [Trace.run_split hsplit, Trace.next_noise (.inr rfl)]
    rfl
  have hbehind := hinput.behind hsplit
  rcases hsplit.slashed with rfl | ⟨r, rfl⟩
  · have hdots : s.dots = .ok { s with frp := [] } := by
      unfold Scan.dots
      rw [hsplit.eq]
      rfl
    exact turns_of_piece hinput hsplit (cons_ne_nil _ _) hdots rfl (h.skip_shorter hshorter)
      hrun
  · -- the dot goes together with its slash, and with one more
    have hdots : s.dots = .ok { s with frp := r } := by
      unfold Scan.dots
      rw [hsplit.eq]
      rfl
    have hlt : r.length < s.frp.length := lt_trans (Nat.lt_succ_self _) hshorter
    rw [Trace.run_slash] at hrun
    have hsim : Sim N { s with frp := r } t := h.skip_shorter hlt
    by_cases hslash : r ≠ [] ∧ Scan.char r 0 = slash
    · obtain ⟨r', rfl⟩ : ∃ r', r = slash :: r' := by
        cases r with
        | nil => exact absurd rfl hslash.1
        | cons x r' =>
          have hx : x = slash := hslash.2
          exact ⟨r', by rw [hx]⟩
      rw [Trace.run_slash] at hrun
      have hnoise : s.noise = .ok { s with frp := r' } :=
        noise_slash (u := { s with frp := slash :: r' }) hdots rfl
      refine .inr ⟨{ s with frp := r' }, t, hnoise, ?_, hbehind.drop.drop, hrun, .inl ?_⟩
      · exact h.skip_shorter (lt_trans (Nat.lt_succ_self _) hlt)
      · exact lt_trans (Nat.lt_succ_self _) hlt
    · refine .inr ⟨{ s with frp := r }, t, noise_other hdots ?_, hsim, hbehind.drop, hrun, .inl hlt⟩
      exact fun hne hchar => hslash ⟨hne, hchar⟩

theorem turns_pops (h : Sim N s t) (hinput : Input s.frp) (hsplit : Split s.frp c rest)
    (hpops : Trace.Pops c rest.isEmpty) : Turns N s t := by
  have hlength : c.length = 2 := by
    rcases hpops with rfl | ⟨-, hlength, -⟩
    · rfl
    · exact hlength
  have hc : c ≠ [] := by
    rintro rfl
    cases hlength
  have hdots := dots_of_pops hinput hsplit hpops
  have hnext : t.next c rest.isEmpty = t.pop := by
    unfold Trace.next
    rw [if_neg, if_pos hpops]
    rintro (rfl | rfl)
    · cases hlength
    · cases hlength
  have hrun := Trace.run_split hsplit t
  rw [hnext] at hrun
  have hskip : Sim N { s with frp := rest } t := by
    apply h.skip_shorter
    rw [hsplit.eq, length_append]
    exact Nat.lt_add_of_pos_left (List.length_pos_iff.2 hc)
  cases hpop : t.pop with
  | none =>
    rw [hpop] at hrun
    rw [hskip.pop_none hpop] at hdots
    refine .inl ⟨?_, hrun⟩
    unfold Scan.noise
    rw [hdots]
    rfl
  | some t' =>
    obtain ⟨u, hu, hsim, hfrp⟩ := hskip.pop_some hpop
    rw [hpop] at hrun
    rw [hu] at hdots
    exact turns_of_piece hinput hsplit hc hdots hfrp hsim hrun

theorem Sim.turns (h : Sim N s t) (hinput : Input s.frp) (hne : s.frp ≠ []) : Turns N s t := by
  obtain ⟨c, rest, hsplit⟩ := exists_split s.frp
  by_cases hnil : c = []
  · subst hnil
    rcases hsplit.slashed with rfl | ⟨r, rfl⟩
    · exact absurd hsplit.eq hne
    · exact turns_slash h hinput hsplit.eq
  by_cases hdot : c = [dot]
  · subst hdot
    exact turns_dot h hinput hsplit
  by_cases hpops : Trace.Pops c rest.isEmpty
  · exact turns_pops h hinput hsplit hpops
  · have hreal : Real s.frp := by
      refine ⟨hne, ?_⟩
      intro d rest' hsplit'
      obtain ⟨rfl, rfl⟩ := hsplit.unique hsplit'
      exact ⟨hnil, hdot, hpops⟩
    have hchar : s.frp ≠ [] → Scan.char s.frp 0 ≠ slash := by
      intro _ hslash
      cases c with
      | nil => exact hnil rfl
      | cons x c =>
        rw [hsplit.eq] at hslash
        have hx : x = slash := hslash
        exact hsplit.free (by rw [hx]; exact mem_cons_self)
    exact .inr ⟨s, t, noise_other (dots_of_real hinput hreal) hchar, h, hinput, rfl,
      .inr ⟨rfl, rfl, hreal⟩⟩

theorem Sim.skipNoise (h : Sim N s t) (hinput : Input s.frp) (hne : s.frp ≠ []) :
    ∀ {n : ℕ}, s.frp.length < n →
      (s.skipNoise n = .error .fault ∧ t.run (s.frp.splitOn slash) = none) ∨
        ∃ u t', s.skipNoise n = .ok u ∧ Sim N u t' ∧ Input u.frp ∧
          t.run (s.frp.splitOn slash) = t'.run (u.frp.splitOn slash) ∧
          u.frp.length ≤ s.frp.length ∧ (u.frp = [] ∨ Real u.frp) := by
  intro n
  induction n generalizing s t with
  | zero => exact fun hn => absurd hn (Nat.not_lt_zero _)
  | succ n ih =>
    intro hn
    have hloop : s.skipNoise (n + 1) = (s.noise.bind fun u =>
        if u.frp ≠ [] ∧ u.frp.length ≠ s.frp.length then u.skipNoise n else .ok u) := rfl
    rw [hloop]
    rcases h.turns hinput hne with ⟨hfault, hrun⟩ | ⟨u, t', hu, hsim, hinput', hrun, hcase⟩
    · exact .inl ⟨by rw [hfault]; rfl, hrun⟩
    · rw [hu]
      change ((if u.frp ≠ [] ∧ u.frp.length ≠ s.frp.length then u.skipNoise n
          else .ok u) = _ ∧ _) ∨
        ∃ v t'', (if u.frp ≠ [] ∧ u.frp.length ≠ s.frp.length then u.skipNoise n
          else .ok u) = _ ∧ _
      rcases hcase with hlt | ⟨rfl, rfl, hreal⟩
      · by_cases hnil : u.frp = []
        · rw [if_neg fun hcond => hcond.1 hnil]
          exact .inr ⟨u, t', rfl, hsim, hinput', hrun, le_of_lt hlt, .inl hnil⟩
        · rw [if_pos ⟨hnil, Nat.ne_of_lt hlt⟩, hrun]
          rcases ih hsim hinput' hnil (by omega) with
            hfault | ⟨v, t'', hv, hsim', hin, hrun', hle, hend⟩
          · exact .inl hfault
          · exact .inr ⟨v, t'', hv, hsim', hin, hrun', le_trans hle (le_of_lt hlt), hend⟩
      · rw [if_neg fun hcond => hcond.2 rfl]
        exact .inr ⟨u, t', rfl, hsim, hinput', rfl, le_rfl, .inr hreal⟩

/-! ### A component -/

theorem copyName_eq {ptr : ℕ} (hslashed : rest = [] ∨ ∃ r, rest = slash :: r) :
    ∀ {d : Component} {np : Buf} {top k : ℕ}, slash ∉ d → np.bytes ptr = UInt8.ofNat k →
      k + d.length ≤ 255 → ptr < top → top + d.length ≤ np.size →
      ∃ np', Scan.copyName ptr (d ++ rest) np top = .ok (np', rest) ∧ np'.size = np.size ∧
        np'.bytes ptr = UInt8.ofNat (k + d.length) ∧
        (∀ i x, d[i]? = some x → np'.bytes (top + i) = x) ∧
        ∀ j, j < top → j ≠ ptr → np'.bytes j = np.bytes j := by
  intro d
  induction d with
  | nil =>
    intro np top k _ hk _ _ _
    refine ⟨np, ?_, rfl, hk, nofun, fun _ _ _ => rfl⟩
    rcases hslashed with rfl | ⟨r, rfl⟩
    · rfl
    · exact if_pos rfl
  | cons x d ih =>
    intro np top k hfree hk hshort htop hsize
    have hx : x ≠ slash := by
      rintro rfl
      exact hfree mem_cons_self
    have hfree' : slash ∉ d := fun hmem => hfree (mem_cons_of_mem _ hmem)
    rw [length_cons] at hshort hsize
    have hcount : (np.bytes ptr).toNat = k := by
      rw [hk]
      exact UInt8.toNat_ofNat_of_lt' (by change k < 256; omega)
    let np₁ : Buf := { np with bytes := update np.bytes top x }
    let np₂ : Buf := { np₁ with bytes := update np₁.bytes ptr (np₁.bytes ptr + 1) }
    have hptr : np₁.bytes ptr = UInt8.ofNat k := by
      rw [← hk]
      exact update_of_ne (Nat.ne_of_lt htop) ..
    have hptr₂ : np₂.bytes ptr = UInt8.ofNat (k + 1) := by
      rw [UInt8.ofNat_add, ← hptr]
      exact update_self ..
    have hcopy : Scan.copyName ptr (x :: d ++ rest) np top =
        Scan.copyName ptr (d ++ rest) np₂ (top + 1) := by
      change (if x = slash then _ else if 254 < (np.bytes ptr).toNat then _
        else if np.size ≤ top then _ else _) = _
      rw [if_neg hx, hcount, if_neg (by omega), if_neg (by omega), set_of_lt (by omega)]
      change (np₁.set ptr _).bind _ = _
      rw [set_of_lt (by change ptr < np.size; omega)]
      rfl
    obtain ⟨np', hnp', hsize', hptr', hchars, hframe⟩ :=
      ih hfree' hptr₂ (by omega) (Nat.lt_succ_of_lt htop)
        (by change top + 1 + d.length ≤ np.size; omega)
    refine ⟨np', hcopy.trans hnp', hsize', ?_, ?_, ?_⟩
    · rw [hptr', length_cons]
      congr 1
      omega
    · intro i y hy
      cases i with
      | zero =>
        cases hy
        rw [Nat.add_zero, hframe top (Nat.lt_succ_self _) (Nat.ne_of_gt htop)]
        change update np₁.bytes ptr _ top = x
        rw [update_of_ne (Nat.ne_of_gt htop)]
        exact update_self ..
      | succ i =>
        have hi := hchars i y hy
        rw [← hi]
        congr 1
        omega
    · intro j hj hne
      rw [hframe j (Nat.lt_succ_of_lt hj) hne]
      change update np₁.bytes ptr _ j = _
      rw [update_of_ne hne]
      exact update_of_ne (Nat.ne_of_lt hj) ..

theorem Sim.prepare (h : Sim N s t) (hslashed : s.frp = [] ∨ ∃ r, s.frp = slash :: r)
    (hpath : t.path ≠ []) : ∃ u, s.prepare = .ok u ∧ Sim N u t ∧ u.frp = s.frp := by
  unfold Scan.prepare
  rcases hslashed with hnil | ⟨r, hr⟩
  · rw [if_pos hnil]
    exact ⟨s, rfl, h, rfl⟩
  · have hlt : s.ptr < s.np.size := by
      have hroom := h.room
      rw [hr] at hroom
      change s.ptr + (r.length + 1) ≤ N at hroom
      rw [h.size]
      omega
    have hpos : s.ptr ≠ 0 := by
      rw [h.ptr]
      exact mt size_eq_zero.1 hpath
    rw [if_neg (by rw [hr]; exact cons_ne_nil _ _), if_neg (not_le.2 hlt), set_of_lt hlt]
    refine ⟨_, rfl, ⟨h.size, h.pos, h.ptr, h.npLen, ?_, ?_, h.fits, h.room⟩, rfl⟩
    · apply h.stored.congr
      intro i hi
      rw [← h.ptr] at hi
      exact update_of_ne (Nat.ne_of_lt hi) ..
    · rw [← h.first]
      exact update_of_ne hpos.symm ..

theorem Sim.component (h : Sim N s t) (hinput : Input s.frp) (hreal : Real s.frp) :
    ∃ u t', s.component = .ok u ∧ Sim N u t' ∧ Input u.frp ∧
      t.run (s.frp.splitOn slash) = t'.run (u.frp.splitOn slash) ∧
      u.frp.length < s.frp.length := by
  obtain ⟨c, rest, hsplit⟩ := exists_split s.frp
  obtain ⟨hne, hdot, hpops⟩ := hreal.piece c rest hsplit
  have hlength : 0 < c.length := List.length_pos_iff.2 hne
  have hshort : c.length ≤ 255 := by
    apply hinput.short
    rw [hsplit.pieces]
    exact mem_cons_self
  have hneed : c.length + rest.length + 1 = need s.frp := by
    rw [hsplit.eq]
    cases c with
    | nil => exact absurd rfl hne
    | cons x c =>
      have hx : x ≠ slash := by
        rintro rfl
        exact hsplit.free mem_cons_self
      change _ = if x = slash then (c ++ rest).length + 1 else (c ++ rest).length + 2
      rw [if_neg hx, length_append, length_cons]
      omega
  have hroom := h.room
  rw [← hneed] at hroom
  have hlt : s.ptr < s.np.size := by
    rw [h.size]
    omega
  let np₀ : Buf := { s.np with bytes := update s.np.bytes s.ptr 0 }
  have hzero : np₀.bytes s.ptr = UInt8.ofNat 0 := update_self ..
  obtain ⟨np, hcopy, hsize, hcount, hchars, hframe⟩ :=
    copyName_eq (d := c) hsplit.slashed hsplit.free hzero (by omega) (Nat.lt_succ_self _)
      (by change s.ptr + 1 + c.length ≤ s.np.size; rw [h.size]; omega)
  rw [← hsplit.eq] at hcopy
  rw [Nat.zero_add] at hcount
  have hnmLen : (np.bytes s.ptr).toNat = c.length := by
    rw [hcount]
    exact UInt8.toNat_ofNat_of_lt' (by change c.length < 256; omega)
  let v : Scan :=
    { np := np
      npLen := s.npLen + BitVec.ofNat 64 c.length + 1
      ptr := s.ptr + c.length + 1
      frp := rest }
  have hcomponent : s.component = v.prepare := by
    unfold Scan.component
    rw [if_neg (not_le.2 hlt), set_of_lt hlt]
    change (Scan.copyName s.ptr s.frp np₀ (s.ptr + 1)).bind _ = _
    rw [hcopy]
    change (if (np.bytes s.ptr).toNat = 0 then _ else _) = _
    rw [hnmLen, if_neg (Nat.ne_of_gt hlength)]
  have hbefore : ∀ i, i < s.ptr → np.bytes i = s.np.bytes i := by
    intro i hi
    rw [hframe i (Nat.lt_succ_of_lt hi) (Nat.ne_of_lt hi)]
    exact update_of_ne (Nat.ne_of_lt hi) ..
  have hstored : Stored np.bytes t.path := by
    apply h.stored.congr
    intro i hi
    rw [← h.ptr] at hi
    exact hbefore i hi
  have hsim : Sim N v (t.append c) := by
    refine ⟨hsize.trans h.size, h.pos, ?_, ?_, ?_, ?_, ?_, ?_⟩
    · change s.ptr + c.length + 1 = Components.size (t.path ++ [c])
      rw [size_concat, h.ptr]
      rfl
    · change s.npLen + _ + 1 = t.npLen + _ + 1
      rw [h.npLen]
    · apply hstored.concat
      · rw [← h.ptr]
        exact hcount
      · intro i x hi
        rw [← h.ptr]
        exact hchars i x hi
    · change np.bytes 0 = if t.path = [] then UInt8.ofNat c.length else t.first
      by_cases hpath : t.path = []
      · rw [if_pos hpath, ← hcount, h.ptr, hpath, size_nil]
      · rw [if_neg hpath, ← h.first]
        apply hbefore
        rw [h.ptr]
        exact Nat.pos_of_ne_zero (mt size_eq_zero.1 hpath)
    · intro d hd
      rcases List.mem_append.1 hd with hd | hd
      · exact h.fits d hd
      · rw [List.mem_singleton.1 hd]
        exact ⟨hlength, by omega⟩
    · change s.ptr + c.length + 1 + need rest ≤ N
      have hrest : need rest ≤ rest.length := by
        rcases hsplit.slashed with rfl | ⟨r, rfl⟩
        · exact le_rfl
        · exact le_rfl
      omega
  have hpath : (t.append c).path ≠ [] := List.append_ne_nil_of_right_ne_nil _ (cons_ne_nil _ _)
  obtain ⟨u, hu, hsim', hfrp⟩ := hsim.prepare hsplit.slashed hpath
  refine ⟨u, t.append c, hcomponent.trans hu, hsim', ?_, ?_, ?_⟩
  · rw [hfrp]
    exact hinput.behind hsplit
  · have hnext : t.next c rest.isEmpty = some (t.append c) := by
      unfold Trace.next
      rw [if_neg (not_or.2 ⟨hne, hdot⟩), if_neg hpops]
    rw [Trace.run_split hsplit, hnext, hfrp]
    rfl
  · rw [hfrp, hsplit.eq, length_append]
    exact Nat.lt_add_of_pos_left hlength

/-! ### The whole path -/

theorem Sim.scan (h : Sim N s t) (hinput : Input s.frp) :
    ∀ {n : ℕ}, s.frp.length < n →
      (Scan.scan n s = .error .fault ∧ t.run (s.frp.splitOn slash) = none) ∨
        ∃ u t', Scan.scan n s = .ok u ∧ Sim N u t' ∧
          t.run (s.frp.splitOn slash) = some t' := by
  intro n
  induction n generalizing s t with
  | zero => exact fun hn => absurd hn (Nat.not_lt_zero _)
  | succ n ih =>
    intro hn
    unfold Scan.scan
    by_cases hnil : s.frp = []
    · rw [if_pos hnil, hnil]
      exact .inr ⟨s, t, rfl, h, Trace.run_nil t⟩
    · rw [if_neg hnil]
      rcases h.skipNoise hinput hnil (Nat.lt_succ_self _) with
        ⟨hfault, hrun⟩ | ⟨u, t₁, hu, hsim, hinput₁, hrun, hle, hcase⟩
      · rw [hfault]
        exact .inl ⟨rfl, hrun⟩
      · rw [hu, hrun]
        change ((if u.frp = [] then .ok u else u.component.bind fun s => Scan.scan n s) = _ ∧ _) ∨
          ∃ v t', (if u.frp = [] then .ok u else u.component.bind fun s => Scan.scan n s) = _ ∧ _
        by_cases hend : u.frp = []
        · rw [if_pos hend, hend]
          exact .inr ⟨u, t₁, rfl, hsim, Trace.run_nil t₁⟩
        · rw [if_neg hend]
          obtain ⟨v, t₂, hv, hsim₂, hinput₂, hrun₂, hlt⟩ :=
            hsim.component hinput₁ (hcase.resolve_left hend)
          rw [hv, hrun₂]
          exact ih hsim₂ hinput₂ (by omega)

/-- The result of `Create` is the path name `p`; the buffer of an empty one can be missing. -/
def Returns (r : Created) (p : List Component) : Prop :=
  r.2 = size p ∧ match r.1 with
    | none => p = []
    | some b => size p ≤ b.size ∧ Stored b.bytes p

theorem sim_begin (hstart : WellFormed start) (hroom : size start + need frp ≤ N) (hpos : 0 < N) :
    Sim N
      ⟨⟨Bytes.write (update junk 0 0) 0 (encode start), N⟩,
        BitVec.ofNat 64 (encode start).length, (encode start).length, frp⟩
      (begin start) := by
  have hstored : Stored (Bytes.write (update junk 0 0) 0 (encode start)) start := by
    unfold Stored
    rw [← length_encode]
    exact Bytes.read_write_self _ _ _
  refine ⟨rfl, hpos, length_encode start, ?_, hstored, ?_, fun c hc => (hstart c hc).1, ?_⟩
  · change BitVec.ofNat 64 (encode start).length = BitVec.ofNat 64 (size start)
    rw [length_encode]
  · cases start with
    | nil => exact update_self (0 : ℕ) (0 : UInt8) junk
    | cons c start => exact hstored.length (p := [])
  · change (encode start).length + need frp ≤ N
    rw [length_encode]
    exact hroom

/-- A buffer of the length zero, or as large as `Create` expects. -/
def Large (unixPath : List UInt8) (start : List Component) (bufLen : ℕ) : Prop :=
  bufLen = 0 ∨ unixPath.length + 1 + size start ≤ bufLen

theorem Large.le (h : Large unixPath start bufLen) : unixPath.length + 1 + size start ≤
      if bufLen ≠ 0 then bufLen else unixPath.length + 1 + (encode start).length := by
  rcases h with hzero | hle
  · rw [if_neg (not_not.2 hzero), length_encode]
  · rw [if_pos (by omega)]
    exact hle

theorem scanned_cases (hinput : Input unixPath) (hstart : WellFormed start)
    (hN : unixPath.length + 1 + size start ≤ N) :
    (scanned junk unixPath (encode start) N = .error .fault ∧
        (begin start).run (unixPath.splitOn slash) = none) ∨
      ∃ s t, scanned junk unixPath (encode start) N = .ok s ∧ Sim N s t ∧
        (begin start).run (unixPath.splitOn slash) = some t := by
  have hneed := need_le unixPath
  have hbegin : Sim N
      ⟨⟨Bytes.write (update junk 0 0) 0 (encode start), N⟩,
        BitVec.ofNat 64 (encode start).length, (encode start).length, unixPath⟩
      (begin start) :=
    sim_begin hstart (by omega) (by omega)
  have hscanned : scanned junk unixPath (encode start) N =
      Scan.scan (unixPath.length + 1)
        ⟨⟨Bytes.write (update junk 0 0) 0 (encode start), N⟩,
          BitVec.ofNat 64 (encode start).length, (encode start).length, unixPath⟩ := by
    unfold scanned
    rw [set_of_lt (by change 0 < N; omega)]
    change (Buf.copy ⟨update junk 0 0, N⟩ (encode start)).bind _ = _
    unfold Buf.copy
    rw [if_pos (by rw [length_encode]; change size start ≤ N; omega)]
    rfl
  rw [hscanned]
  exact hbegin.scan hinput (Nat.lt_succ_self unixPath.length)

theorem create_scanned (junk : Bytes.Buffer) (hlarge : Large unixPath start bufLen) :
    let N := if bufLen ≠ 0 then bufLen else unixPath.length + 1 + (encode start).length
    Create junk unixPath (encode start) bufLen =
      returned bufLen N (scanned junk unixPath (encode start) N) := by
  have hchecks : ¬ (bufLen ≠ 0 ∧
      (bufLen < (encode start).length ∨ bufLen ≤ unixPath.length)) := by
    rw [length_encode]
    rintro ⟨hne, hsmall⟩
    rcases hlarge with hzero | hle
    · exact hne hzero
    · omega
  exact if_neg hchecks

theorem create_eq (hinput : Input unixPath) (hstart : WellFormed start)
    (hlarge : Large unixPath start bufLen) :
    (Create junk unixPath (encode start) bufLen = .error .fault ∧
        (begin start).run (unixPath.splitOn slash) = none) ∨
      ∃ r t, Create junk unixPath (encode start) bufLen = .ok r ∧ Returns r t.path ∧
        (∀ c ∈ t.path, Fits c) ∧ (begin start).run (unixPath.splitOn slash) = some t := by
  have hcreate := create_scanned junk hlarge
  have hN := hlarge.le
  dsimp only at hcreate
  generalize (if bufLen ≠ 0 then bufLen else unixPath.length + 1 + (encode start).length) = N
    at hcreate hN
  rw [hcreate]
  rcases scanned_cases hinput hstart hN with ⟨hfault, hrun⟩ | ⟨s, t, hs, hsim, hrun⟩
  · rw [hfault]
    exact .inl ⟨rfl, hrun⟩
  · rw [hs]
    have hptr : s.ptr = size t.path := hsim.ptr
    right
    unfold returned
    dsimp only
    split_ifs with hexact hne
    · exact ⟨_, t, rfl, ⟨hptr, le_of_eq hptr.symm, hsim.stored⟩, hsim.fits, hrun⟩
    · have hnil : t.path = [] := by
        rw [← size_eq_zero, ← hptr]
        exact not_not.1 hne
      exact ⟨_, t, rfl, ⟨hptr, hnil⟩, hsim.fits, hrun⟩
    · exact ⟨_, t, rfl, ⟨hptr, hsim.size_le, hsim.stored⟩, hsim.fits, hrun⟩

theorem create_isSome (hinput : Input unixPath) (hstart : WellFormed start)
    (hlarge : Large unixPath start bufLen) (hbuf : bufLen ≠ 0) {r : Created}
    (h : Create junk unixPath (encode start) bufLen = .ok r) : ∃ np, r.1 = some np := by
  rw [create_scanned junk hlarge] at h
  rcases scanned_cases hinput hstart hlarge.le with ⟨hfault, -⟩ | ⟨s, t, hs, -, -⟩
  · rw [hfault] at h
    cases h
  · rw [hs, returned] at h
    rw [if_neg fun hexact => hbuf hexact.1] at h
    cases h
    exact ⟨s.np, rfl⟩

end Proofs

end PathName

end K42

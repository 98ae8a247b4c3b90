import K42.Lib.Bytes
import Mathlib.Algebra.BigOperators.Group.List.Basic

/-!
# String tables

The entries of a table lie one behind the other in a buffer. Each has a word that says how far it is
to the next one, and a holder that ends with a string. What an entry does not need is free: a new
entry is put behind the first one that has enough of it. A deleted entry is given to the one before.

`sizeNeed` is computed in 64 bits, so that a length near `2 ^ 64` needs nothing. An entry of that
length fits everywhere, and is written over the entry behind.
-/

open Bytes

namespace K42.StringTable

open Prod (fst mk snd)
open List (cons_append length_cons map_cons mem_cons_self sum_cons)

/-- A holder: its size, the offsets of `strLen` and `str`, and the size of `strLen`. -/
structure SH where
  size : ℕ
  strLen : ℕ
  width : ℕ
  str : ℕ
  before_str : strLen + width ≤ str
  str_lt : str < size

variable (L : SH)

/-- `DirBufEntry`: `uval8 strLen; char str[1]`. -/
def DirBufEntry : SH := ⟨2, 0, 1, 1, by decide, by decide⟩

def strLen (b : Buffer) (sh : ℕ) : ℕ := decode (read b (sh + L.strLen) L.width)

/-- What the holder contains up to the end of its string. -/
def contents (b : Buffer) (sh : ℕ) : List UInt8 := read b sh (L.str + strLen L b sh)

/-- `ALIGN_UP(sizeof(STE<SH>) - sizeof(char) + len, sizeof(uval64))`. -/
def sizeNeed (len : ℕ) : ℕ := (8 + L.size - 1 + len + 7) % 2 ^ 64 / 8 * 8

def space (b : Buffer) (ste : ℕ) : ℕ := decode (read b ste 8)

def setSpace (b : Buffer) (ste v : ℕ) : Buffer := write b ste (encode 8 v)

def getNext (b : Buffer) (ste : ℕ) : ℕ := ste + space b ste

def freeNext (b : Buffer) (ste : ℕ) : Buffer :=
  setSpace b ste (space b ste + space b (getNext b ste))

/-- What a new entry is made from: a length, or a holder elsewhere. -/
inductive Arg
  | len (n : ℕ)
  | cont (src : Buffer) (sh : ℕ)

def Arg.strLen : Arg → ℕ
  | .len n => n
  | .cont src sh => StringTable.strLen L src sh

def STE.init (b : Buffer) (ste : ℕ) (x : Arg) (avail : ℕ) : Buffer :=
  let b := setSpace b ste avail
  match x with
  | .len n => write b (ste + 8 + L.strLen) (encode L.width n)
  | .cont src sh =>
    let b := write b (ste + 8) (read src sh L.size)
    write b (ste + 8 + L.str) (read src (sh + L.str) (strLen L src sh))

/-- The size that the entry needs. -/
def STE.need (b : Buffer) (ste : ℕ) : ℕ := sizeNeed L (strLen L b (ste + 8))

def STE.avail (b : Buffer) (ste : ℕ) : ℕ := (space b ste + 2 ^ 64 - STE.need L b ste) % 2 ^ 64

/-- The buffer, and where the new holder is. -/
def STE.allocEntry (b : Buffer) (ste : ℕ) (x : Arg) : Option (Buffer × ℕ) :=
  if sizeNeed L (x.strLen L) > STE.avail L b ste then none
  else
    let b' := setSpace b ste (STE.need L b ste)
    let nxt := getNext b' ste
    some (STE.init L b' nxt x (STE.avail L b ste), nxt + 8)

/-- `buf` begins with `bufLen` and `numEntries`, which are here fields. -/
structure StrTable where
  bufLen : ℕ
  numEntries : ℕ
  buf : Buffer

def sizeHeader : ℕ := 16

def Init (x : Arg) (buf : Buffer) (blen : ℕ) : StrTable :=
  ⟨blen, 1, STE.init L buf sizeHeader x ((blen + 2 ^ 64 - sizeHeader) % 2 ^ 64)⟩

def allocLoop (x : Arg) : ℕ → Buffer → ℕ → Option (Buffer × ℕ)
  | 0, _, _ => none
  | n + 1, b, ptr => (STE.allocEntry L b ptr x).or (allocLoop x n b (getNext b ptr))

def StrTable.allocEntry (t : StrTable) (x : Arg) : Option (StrTable × ℕ) :=
  (allocLoop L x t.numEntries t.buf sizeHeader).map fun (b, newEntry) =>
    (⟨t.bufLen, t.numEntries + 1, b⟩, newEntry)

/-- The table after `allocEntry`, whether or not there was room. -/
def StrTable.allocated (t : StrTable) (x : Arg) : StrTable :=
  ((t.allocEntry L x).map Prod.fst).getD t

def deleteLoop (found : ℕ → Bool) : ℕ → Buffer → ℕ → ℕ → Option Buffer
  | 0, _, _, _ => none
  | n + 1, b, prev, cur =>
    if found cur then some (freeNext b prev)
    else deleteLoop found n b cur (getNext b cur)

/-- The table, and whether an entry was deleted. -/
def StrTable.deleteEntry (t : StrTable) (found : ℕ → Bool) : StrTable × Bool :=
  match deleteLoop found (t.numEntries - 1) t.buf sizeHeader (getNext t.buf sizeHeader) with
  | some b => (⟨t.bufLen, t.numEntries - 1, b⟩, true)
  | none => (t, false)

/-- `old` counts from the start of the table. -/
def StrTable.deleteEntryWithPtr (t : StrTable) (old : ℤ) : StrTable × Bool :=
  if old < 0 ∨ t.bufLen ≤ old then (t, false)
  else t.deleteEntry fun cur => ((cur + 8 : ℕ) : ℤ) = old

/-- `strncmp` finds no difference. -/
def strncmp : ℕ → Buffer → ℕ → Buffer → ℕ → Bool
  | 0, _, _, _, _ => true
  | n + 1, b, p, b', p' => b p == b' p' && (b p == 0 || strncmp n b (p + 1) b' (p' + 1))

def StrTable.deleteEntryWithContents (t : StrTable) (src : Buffer) (old : ℕ) : StrTable × Bool :=
  if t.numEntries < 2 then (t, false)
  else t.deleteEntry fun cur => strLen L t.buf (cur + 8) == strLen L src old &&
    strncmp (strLen L src old) src (old + L.str) t.buf (cur + 8 + L.str)

def copyLoop (src : Buffer) : ℕ → ℕ → StrTable → StrTable
  | 0, _, newtab => newtab
  | n + 1, ptr, newtab =>
    let ptr := getNext src ptr
    copyLoop src n ptr (newtab.allocated L (.cont src (ptr + 8)))

def copyEntries (t : StrTable) (dst : Buffer) (blen : ℕ) : StrTable :=
  copyLoop L t.buf (t.numEntries - 1) sizeHeader
    (Init L (.cont t.buf (sizeHeader + 8)) dst blen)

def doubleSize (t : StrTable) (dst : Buffer) : StrTable :=
  copyEntries L t dst (t.bufLen * 2 % 2 ^ 64)

/-- `_DynamicStrTable::allocEntry`. The buffers that `ALLOC` returns are `dst`. -/
def growLoop (x : Arg) (dst : ℕ → Buffer) : ℕ → StrTable → Option (StrTable × ℕ)
  | 0, _ => none
  | n + 1, t => (t.allocEntry L x).or (growLoop x dst n (doubleSize L t (dst n)))

inductive Op
  | allocEntry (x : Arg)
  | deleteEntryWithPtr (old : ℤ)
  | deleteEntryWithContents (src : Buffer) (old : ℕ)
  | doubleSize (dst : Buffer)
  | growEntry (x : Arg) (dst : ℕ → Buffer)

/-- `none` if the loop does not end: the size is `0` after 64 rounds. -/
def step (t : StrTable) : Op → Option StrTable
  | .allocEntry x => some (t.allocated L x)
  | .deleteEntryWithPtr old => some (t.deleteEntryWithPtr old).1
  | .deleteEntryWithContents src old => some (t.deleteEntryWithContents L src old).1
  | .doubleSize dst => some (StringTable.doubleSize L t dst)
  | .growEntry x dst => (growLoop L x dst 64 t).map Prod.fst

/-! ## The tiling -/

/-- An entry: its space, and the contents of its holder. -/
abbrev Entry : Type := ℕ × List UInt8

def need (c : List UInt8) : ℕ := sizeNeed L (c.length - L.str)

def slack (e : Entry) : ℕ := e.1 - need L e.2

/-- The length of the string is positive, and is not so long that its size wraps. -/
structure Valid (e : Entry) : Prop where
  pos : L.str < e.2.length
  noWrap : e.2.length - L.str + L.size + 14 < 2 ^ 64
  need_le : need L e.2 ≤ e.1

/-- The entries fill the buffer from `p` up to `q`. -/
def Tiles (b : Buffer) : ℕ → List Entry → ℕ → Prop
  | p, [], q => p = q
  | p, e :: es, q => space b p = e.1 ∧ contents L b (p + 8) = e.2 ∧ Valid L e ∧
      Tiles b (getNext b p) es q

structure Tiled (t : StrTable) (es : List Entry) : Prop where
  tiles : Tiles L t.buf sizeHeader es t.bufLen
  numEntries : t.numEntries = es.length
  bufLen : t.bufLen < 2 ^ 64
  nonempty : es ≠ []

/-- Only the last entry has more than it needs. -/
def Compact (es : List Entry) : Prop := ∃ ds f, es = ds ++ [f] ∧ ∀ d ∈ ds, slack L d = 0

def needs (es : List Entry) : ℕ := (es.map fun e => need L e.2).sum

/-- What an entry made from `x` contains. -/
def Arg.Gives (c : List UInt8) : Arg → Prop
  | .len n => c.length = L.str + n % 256 ^ L.width
  | .cont src sh => c = contents L src sh

def Inserts (x : Arg) (cs cs' : List (List UInt8)) : Prop :=
  ∃ l c r, x.Gives L c ∧ cs = l ++ r ∧ cs' = l ++ c :: r

def Deletes (cs cs' : List (List UInt8)) : Prop := ∃ l c r, cs = l ++ c :: r ∧ cs' = l ++ r

/-- What an operation may do to the contents of the entries. -/
def Op.Keeps (cs cs' : List (List UInt8)) : Op → Prop
  | .allocEntry x => cs' = cs ∨ Inserts L x cs cs'
  | .deleteEntryWithPtr _ | .deleteEntryWithContents _ _ => cs' = cs ∨ Deletes cs cs'
  | .doubleSize _ => cs' = cs
  | .growEntry x _ => Inserts L x cs cs'

/-- In each state the entries tile the buffer, and each step ends and keeps the others. -/
def Follows : List Entry → StrTable → List Op → Prop
  | es, t, [] => Tiled L t es
  | es, t, op :: ops => Tiled L t es ∧ ∃ t' es', step L t op = some t' ∧
      op.Keeps L (es.map Prod.snd) (es'.map Prod.snd) ∧ Follows es' t' ops


/-! ## One entry -/

variable {L} {b b' : Buffer} {p q n : ℕ} {e : Entry} {es : List Entry} {x : Arg} {t : StrTable}

theorem sizeNeed_bounds (h : n + L.size + 14 < 2 ^ 64) :
    7 + L.size + n ≤ sizeNeed L n ∧ sizeNeed L n ≤ 14 + L.size + n := by
  unfold sizeNeed
  omega

theorem Valid.room (h : Valid L e) : 8 + e.2.length ≤ need L e.2 := by
  have hb := sizeNeed_bounds h.noWrap
  have hstr := L.str_lt
  have hpos := h.pos
  unfold need
  omega

theorem length_contents (b : Buffer) (p : ℕ) :
    (contents L b p).length = L.str + strLen L b p := length_read _ _ _

theorem contents_congr (h : ∀ k, p ≤ k → k < p + (contents L b p).length → b' k = b k) :
    contents L b' p = contents L b p := by
  rw [length_contents] at h
  have hlen : strLen L b' p = strLen L b p := by
    have hfields := L.before_str
    unfold strLen
    rw [read_congr]
    intro k h₁ h₂
    exact h k (by omega) (by omega)
  unfold contents
  rw [hlen, read_congr h]

theorem space_setSpace (b : Buffer) (p : ℕ) (h : n < 2 ^ 64) : space (setSpace b p n) p = n := by
  have hread := read_write_self b p (encode 8 n)
  rw [length_encode] at hread
  unfold space setSpace
  rw [hread, decode_encode h]

theorem setSpace_eqOutside (b : Buffer) (p n : ℕ) : EqOutside p (p + 8) b (setSpace b p n) := by
  have h := write_eqOutside b p (encode 8 n)
  rwa [length_encode] at h

theorem space_congr (h : EqOutside p q b b') {k : ℕ} (hk : k + 8 ≤ p ∨ q ≤ k) :
    space b' k = space b k := by
  unfold space
  rw [h.read hk]

/-- The stored length is positive. -/
def Arg.Positive (L : SH) : Arg → Prop
  | .len n => 0 < n % 256 ^ L.width
  | .cont src sh => 0 < StringTable.strLen L src sh

/-- The size does not wrap. -/
def Arg.NoWrap (L : SH) (x : Arg) : Prop := x.strLen L + L.size + 14 < 2 ^ 64

theorem Arg.Gives.valid {c : List UInt8} (h : x.Gives L c) (hpos : x.Positive L)
    (hwrap : x.NoWrap L) {s : ℕ} (hs : sizeNeed L (x.strLen L) ≤ s) : Valid L (s, c) := by
  have hlen : c.length - L.str ≤ x.strLen L ∧ L.str < c.length := by
    cases x with
    | len n =>
      have hmod := Nat.mod_le n (256 ^ L.width)
      simp only [Arg.Gives, Arg.Positive, Arg.strLen] at h hpos ⊢
      omega
    | cont src sh =>
      simp only [Arg.Gives, Arg.Positive, Arg.strLen] at h hpos ⊢
      rw [h, length_contents]
      omega
  unfold Arg.NoWrap at hwrap
  refine ⟨hlen.2, ?_, ?_⟩
  · dsimp only
    omega
  · refine le_trans ?_ hs
    simp only [need, sizeNeed]
    omega

theorem init_spec (b : Buffer) (p : ℕ) {avail : ℕ} (hpos : x.Positive L) (hwrap : x.NoWrap L)
    (havail : avail < 2 ^ 64) :
    space (STE.init L b p x avail) p = avail ∧
    x.Gives L (contents L (STE.init L b p x avail) (p + 8)) ∧
    EqOutside p (p + sizeNeed L (x.strLen L)) b (STE.init L b p x avail) := by
  have hneed := (sizeNeed_bounds hwrap).1
  have hbefore := L.before_str
  have hstr := L.str_lt
  have hspace := space_setSpace b p havail
  have hset : EqOutside p (p + sizeNeed L (x.strLen L)) b (setSpace b p avail) :=
    (setSpace_eqOutside b p avail).mono le_rfl (by omega)
  cases x with
  | len n =>
    simp only [Arg.strLen, STE.init] at hneed hset ⊢
    have hw := write_eqOutside (setSpace b p avail) (p + 8 + L.strLen) (encode L.width n)
    rw [length_encode] at hw
    refine ⟨?_, ?_, hset.trans (hw.mono (by omega) (by omega))⟩
    · exact (space_congr hw (.inl (by omega))).trans hspace
    · have hread := read_write_self (setSpace b p avail) (p + 8 + L.strLen) (encode L.width n)
      rw [length_encode] at hread
      rw [Arg.Gives, length_contents, strLen, hread, decode_encode_mod]
  | cont src sh =>
    simp only [Arg.strLen, Arg.Positive, STE.init] at hneed hset hpos ⊢
    have hw := write_eqOutside (setSpace b p avail) (p + 8) (read src sh L.size)
    have hw' := write_eqOutside (write (setSpace b p avail) (p + 8) (read src sh L.size))
      (p + 8 + L.str) (read src (sh + L.str) (strLen L src sh))
    rw [length_read] at hw hw'
    refine ⟨?_, ?_, (hset.trans (hw.mono (by omega) (by omega))).trans
      (hw'.mono (by omega) (by omega))⟩
    · rw [space_congr hw' (.inl (by omega)), space_congr hw (.inl (by omega)), hspace]
    · generalize hb' : write _ (p + 8 + L.str) _ = b' at hw' ⊢
      have hbyte : ∀ k, k < L.str + strLen L src sh → b' (p + 8 + k) = src (sh + k) := by
        intro k hk
        by_cases hstrk : k < L.str
        · rw [hw' _ (.inl (by omega)), write_read_apply (by omega)]
        · obtain ⟨j, rfl⟩ := Nat.exists_eq_add_of_le (not_lt.mp hstrk)
          rw [← hb', ← Nat.add_assoc, write_read_apply (by omega), Nat.add_assoc]
      have hlen : strLen L b' (p + 8) = strLen L src sh := by
        unfold strLen
        rw [read_shift]
        intro k hk
        rw [Nat.add_assoc (p + 8), Nat.add_assoc sh]
        exact hbyte _ (by omega)
      rw [Arg.Gives]
      unfold contents
      rw [hlen, read_shift hbyte]

/-! ## The entries of a buffer -/

theorem Tiles.sum (h : Tiles L b p es q) : p + (es.map fst).sum = q := by
  induction es generalizing p with
  | nil => simpa [Tiles] using h
  | cons e es ih =>
    obtain ⟨hspace, -, -, hes⟩ := h
    have hsum := ih hes
    rw [getNext, hspace] at hsum
    rw [map_cons, sum_cons, ← hsum, Nat.add_assoc]

theorem Tiles.le (h : Tiles L b p es q) : p ≤ q := by
  have hsum := h.sum
  omega

theorem Tiles.congr (h : Tiles L b p es q) (heq : ∀ k, p ≤ k → k < q → b' k = b k) :
    Tiles L b' p es q := by
  induction es generalizing p with
  | nil => exact h
  | cons e es ih =>
    obtain ⟨hspace, hcont, hvalid, hes⟩ := h
    have hroom := hvalid.room
    have hneed := hvalid.need_le
    have hle := hes.le
    rw [getNext, hspace] at hle
    have hspace' : space b' p = space b p := by
      unfold space
      rw [read_congr fun k h₁ h₂ => heq k h₁ (by omega)]
    refine ⟨hspace'.trans hspace, ?_, hvalid, ?_⟩
    · refine (contents_congr ?_).trans hcont
      rw [hcont]
      intro k h₁ h₂
      exact heq k (by omega) (by omega)
    · rw [getNext, hspace']
      refine ih hes fun k h₁ h₂ => heq k ?_ h₂
      omega

theorem tiles_append {l r : List Entry} :
    Tiles L b p (l ++ r) q ↔ ∃ m, Tiles L b p l m ∧ Tiles L b m r q := by
  induction l generalizing p with
  | nil => simp [Tiles]
  | cons e l ih => simp only [cons_append, Tiles, ih, and_assoc, exists_and_left]

theorem allocEntry_spec (h : Tiles L b p [e] q) (hq : q < 2 ^ 64) (hpos : x.Positive L)
    (hwrap : x.NoWrap L) : (STE.allocEntry L b p x = none → slack L e < sizeNeed L (x.strLen L)) ∧
    ∀ b' a, STE.allocEntry L b p x = some (b', a) →
      sizeNeed L (x.strLen L) ≤ slack L e ∧ EqOutside p q b b' ∧
        ∃ c, x.Gives L c ∧ Tiles L b' p [(need L e.2, e.2), (slack L e, c)] q := by
  obtain ⟨hspace, hcont, hvalid, hend⟩ := h
  have hroom := hvalid.room
  have hle := hvalid.need_le
  obtain rfl : p + e.1 = q := by rw [← hspace]; exact hend
  have hneed : STE.need L b p = need L e.2 := by
    rw [STE.need, need, ← hcont, length_contents, Nat.add_sub_cancel_left]
  have havail : STE.avail L b p = slack L e := by
    unfold STE.avail slack
    omega
  rw [STE.allocEntry, havail, hneed]
  refine ⟨fun hnone => ?_, fun b' a halloc => ?_⟩
  · by_contra hfits
    rw [if_neg hfits] at hnone
    cases hnone
  · have hfits : ¬ sizeNeed L (x.strLen L) > slack L e := by
      intro hfits
      rw [if_pos hfits] at halloc
      cases halloc
    have hset := setSpace_eqOutside b p (need L e.2)
    have hnext : getNext (setSpace b p (need L e.2)) p = p + need L e.2 := by
      rw [getNext, space_setSpace _ _ (by omega)]
    have hslack : need L e.2 + slack L e = e.1 := Nat.add_sub_cancel' hle
    have hinit := init_spec (setSpace b p (need L e.2)) (p + need L e.2) hpos hwrap
      (show slack L e < 2 ^ 64 by omega)
    have hsize := not_lt.mp hfits
    simp only [if_neg hfits, hnext, Option.some.injEq, mk.injEq] at halloc
    rw [halloc.1] at hinit
    obtain ⟨havail', hgives, hinit⟩ := hinit
    have hspace' : space b' p = need L e.2 := by
      rw [space_congr hinit (.inl (by omega)), space_setSpace _ _ (by omega)]
    refine ⟨hsize, (hset.mono le_rfl (by omega)).trans (hinit.mono (by omega) (by omega)),
      contents L b' (p + need L e.2 + 8), hgives, hspace', ?_,
      ⟨hvalid.pos, hvalid.noWrap, le_rfl⟩, ?_⟩
    · refine (contents_congr fun k h₁ h₂ => ?_).trans hcont
      rw [hcont] at h₂
      rw [hinit k (.inl (by omega)), hset k (.inr (by omega))]
    · rw [getNext, hspace']
      refine ⟨havail', rfl, hgives.valid hpos hwrap hsize, ?_⟩
      rw [getNext, havail', Nat.add_assoc, hslack]
      rfl

theorem allocLoop_spec (h : Tiles L b p es q) (hq : q < 2 ^ 64) (hpos : x.Positive L)
    (hwrap : x.NoWrap L) :
    (allocLoop L x es.length b p = none → ∀ e ∈ es, slack L e < sizeNeed L (x.strLen L)) ∧
    ∀ b' a, allocLoop L x es.length b p = some (b', a) →
      EqOutside p q b b' ∧ ∃ l e r c, es = l ++ e :: r ∧ x.Gives L c ∧
        sizeNeed L (x.strLen L) ≤ slack L e ∧
        Tiles L b' p (l ++ (need L e.2, e.2) :: (slack L e, c) :: r) q := by
  induction es generalizing p with
  | nil => exact ⟨fun _ => nofun, nofun⟩
  | cons e es ih =>
    obtain ⟨m, hhead, hes⟩ := tiles_append.mp (show Tiles L b p ([e] ++ es) q from h)
    have hmq := hes.le
    have hpm := hhead.le
    have hspec := allocEntry_spec hhead (by omega) hpos hwrap
    have hm : getNext b p = m := hhead.2.2.2
    simp only [length_cons, allocLoop, hm, Option.or_eq_none_iff, Option.or_eq_some_iff]
    refine ⟨fun hnone => ?_, fun b' a halloc => ?_⟩
    · exact List.forall_mem_cons.mpr ⟨hspec.1 hnone.1, (ih hes).1 hnone.2⟩
    · rcases halloc with halloc | ⟨-, halloc⟩
      · obtain ⟨hsize, heq, c, hgives, htiles⟩ := hspec.2 b' a halloc
        refine ⟨heq.mono le_rfl hmq, [], e, es, c, rfl, hgives, hsize, ?_⟩
        exact (tiles_append (l := [_, _])).mpr ⟨m, htiles, hes.congr fun k h₁ _ => heq k (.inr h₁)⟩
      · obtain ⟨heq, l, e', r', c, rfl, hgives, hsize, htiles⟩ := (ih hes).2 b' a halloc
        refine ⟨heq.mono hpm le_rfl, e :: l, e', r', c, rfl, hgives, hsize, ?_⟩
        exact (tiles_append (l := [e])).mpr ⟨m, hhead.congr fun k _ h₂ => heq k (.inl h₂), htiles⟩

theorem deleteLoop_spec {found : ℕ → Bool} (h : Tiles L b p (e :: es) q) (hq : q < 2 ^ 64)
    (hdelete : deleteLoop found es.length b p (getNext b p) = some b') :
    EqOutside p q b b' ∧ ∃ l e₁ e₂ r, e :: es = l ++ e₁ :: e₂ :: r ∧
      Tiles L b' p (l ++ (e₁.1 + e₂.1, e₁.2) :: r) q := by
  induction es generalizing p e with
  | nil => cases hdelete
  | cons e' es ih =>
    obtain ⟨m, hhead, hes⟩ := tiles_append.mp (show Tiles L b p ([e] ++ e' :: es) q from h)
    have hm : getNext b p = m := hhead.2.2.2
    have hroom := hhead.2.2.1.room
    have hneed := hhead.2.2.1.need_le
    have hsum := h.sum
    rw [map_cons, map_cons, sum_cons, sum_cons] at hsum
    have hpm : p + e.1 = m := by rw [← hhead.1]; exact hm
    rw [length_cons, deleteLoop, hm] at hdelete
    split at hdelete
    · cases hdelete
      have hfree : freeNext b p = setSpace b p (e.1 + e'.1) := by
        rw [freeNext, hm, hhead.1, hes.1]
      rw [hfree]
      have heq := setSpace_eqOutside b p (e.1 + e'.1)
      have hspace := space_setSpace b p (show e.1 + e'.1 < 2 ^ 64 by omega)
      refine ⟨heq.mono le_rfl (by omega), [], e, e', es, rfl, hspace, ?_,
        ⟨hhead.2.2.1.pos, hhead.2.2.1.noWrap, le_trans hneed (Nat.le_add_right _ _)⟩, ?_⟩
      · refine (contents_congr fun k h₁ _ => heq k (.inr h₁)).trans hhead.2.1
      · have hnext : getNext (setSpace b p (e.1 + e'.1)) p = getNext b m := by
          rw [getNext, getNext, hspace, hes.1, ← hpm, Nat.add_assoc]
        rw [hnext]
        refine hes.2.2.2.congr fun k h₁ _ => heq k (.inr ?_)
        unfold getNext at h₁
        omega
    · obtain ⟨heq, l, e₁, e₂, r, hsplit, htiles⟩ := ih hes hdelete
      refine ⟨heq.mono (by omega) le_rfl, e :: l, e₁, e₂, r, congrArg _ hsplit, ?_⟩
      exact (tiles_append (l := [e])).mpr ⟨m, hhead.congr fun k _ h₂ => heq k (.inl h₂), htiles⟩

/-! ## Tables -/

theorem Tiled.allocEntry (h : Tiled L t es) (hpos : x.Positive L) (hwrap : x.NoWrap L) :
    (t.allocEntry L x = none → ∀ e ∈ es, slack L e < sizeNeed L (x.strLen L)) ∧
    ∀ t' a, t.allocEntry L x = some (t', a) → t'.bufLen = t.bufLen ∧
      ∃ l e r c, es = l ++ e :: r ∧ x.Gives L c ∧ sizeNeed L (x.strLen L) ≤ slack L e ∧
        Tiled L t' (l ++ (need L e.2, e.2) :: (slack L e, c) :: r) := by
  have hspec := allocLoop_spec h.tiles h.bufLen hpos hwrap
  rw [← h.numEntries] at hspec
  unfold StrTable.allocEntry
  refine ⟨fun hnone => hspec.1 (Option.map_eq_none_iff.mp hnone), fun t' a halloc => ?_⟩
  obtain ⟨⟨b', a'⟩, hloop, heq⟩ := Option.map_eq_some_iff.mp halloc
  cases heq
  obtain ⟨-, l, e, r, c, hes, hgives, hsize, htiles⟩ := hspec.2 b' a hloop
  refine ⟨rfl, l, e, r, c, hes, hgives, hsize, htiles, ?_, h.bufLen, by simp⟩
  rw [h.numEntries, hes]
  simp
  rfl

theorem inserts_of_split {l r : List Entry} {c : List UInt8} (hgives : x.Gives L c) :
    Inserts L x ((l ++ e :: r).map snd)
      ((l ++ (need L e.2, e.2) :: (slack L e, c) :: r).map snd) :=
  ⟨(l ++ [e]).map snd, c, r.map snd, hgives, by simp, by simp⟩

theorem Tiled.deleteEntry (h : Tiled L t es) (found : ℕ → Bool) :
    ∃ es', Tiled L (t.deleteEntry found).1 es' ∧
      (es'.map snd = es.map snd ∨ Deletes (es.map snd) (es'.map snd)) := by
  unfold StrTable.deleteEntry
  cases hloop : deleteLoop found (t.numEntries - 1) t.buf sizeHeader (getNext t.buf sizeHeader) with
  | none => exact ⟨es, h, .inl rfl⟩
  | some b' =>
    obtain ⟨e, rest, rfl⟩ := List.exists_cons_of_ne_nil h.nonempty
    rw [h.numEntries] at hloop
    obtain ⟨-, l, e₁, e₂, r, hsplit, htiles⟩ := deleteLoop_spec h.tiles h.bufLen hloop
    refine ⟨_, ⟨htiles, ?_, h.bufLen, by simp⟩, .inr ⟨(l ++ [e₁]).map snd, e₂.2,
      r.map snd, ?_, ?_⟩⟩
    · dsimp only
      rw [h.numEntries, hsplit]
      simp
    · rw [hsplit]
      simp
    · simp

theorem init_tiled (buf : Buffer) {blen : ℕ} (hpos : x.Positive L) (hwrap : x.NoWrap L)
    (hlen : sizeHeader + sizeNeed L (x.strLen L) ≤ blen) (hblen : blen < 2 ^ 64) :
    ∃ c, x.Gives L c ∧ Tiled L (Init L x buf blen) [(blen - sizeHeader, c)] := by
  have havail : (blen + 2 ^ 64 - sizeHeader) % 2 ^ 64 = blen - sizeHeader := by omega
  obtain ⟨hspace, hgives, -⟩ := init_spec buf sizeHeader hpos hwrap
    (show blen - sizeHeader < 2 ^ 64 by omega)
  rw [Init, havail]
  refine ⟨_, hgives, ⟨hspace, rfl, hgives.valid hpos hwrap (by omega), ?_⟩, rfl, hblen, by simp⟩
  change sizeHeader + space _ _ = blen
  rw [hspace]
  omega

theorem cont_of_tiles (h : Tiles L b p (e :: es) q) :
    Arg.Positive L (.cont b (p + 8)) ∧ Arg.NoWrap L (.cont b (p + 8)) ∧
      sizeNeed L (strLen L b (p + 8)) = need L e.2 := by
  obtain ⟨-, hcont, hvalid, -⟩ := h
  have hlen : strLen L b (p + 8) = e.2.length - L.str := by
    rw [← hcont, length_contents, Nat.add_sub_cancel_left]
  refine ⟨?_, ?_, congrArg _ hlen⟩
  · have hpos := hvalid.pos
    rw [Arg.Positive, hlen]
    omega
  · rw [Arg.NoWrap, Arg.strLen, hlen]
    exact hvalid.noWrap

theorem copyLoop_spec {src : Buffer} {nt : StrTable} (ds : List Entry) {f : Entry}
    (hold : Tiles L src p (e :: es) q) (hnew : Tiled L nt (ds ++ [f]))
    (hzero : ∀ d ∈ ds, slack L d = 0) (hroom : needs L es ≤ slack L f) :
    (copyLoop L src es.length p nt).bufLen = nt.bufLen ∧
      ∃ es', Tiled L (copyLoop L src es.length p nt) es' ∧ Compact L es' ∧
        es'.map snd = (ds ++ [f]).map snd ++ es.map snd := by
  induction es generalizing p e nt ds f with
  | nil => exact ⟨rfl, _, hnew, ⟨ds, f, rfl, hzero⟩, (List.append_nil _).symm⟩
  | cons e' es ih =>
    obtain ⟨-, -, -, hes⟩ := hold
    obtain ⟨hpos, hwrap, hsize⟩ := cont_of_tiles hes
    have hvalid := hes.2.2.1
    have hneed := hvalid.room
    rw [needs, map_cons, sum_cons] at hroom
    obtain ⟨hnone, hsome⟩ := hnew.allocEntry hpos hwrap
    simp only [Arg.strLen, hsize] at hnone hsome
    rw [length_cons, copyLoop]
    unfold StrTable.allocated
    cases halloc : nt.allocEntry L (.cont src (getNext src p + 8)) with
    | none =>
      have hfull := hnone halloc f (by simp)
      omega
    | some r =>
      obtain ⟨hlen, l, e₁, r', c, hsplit, hgives, hfits, htiled⟩ := hsome r.1 r.2 halloc
      -- only the last entry has room
      obtain ⟨rfl, rfl, rfl⟩ : r' = [] ∧ ds = l ∧ f = e₁ := by
        rcases List.eq_nil_or_concat r' with rfl | ⟨r', y, rfl⟩
        · obtain ⟨hds, hf⟩ := List.append_inj' hsplit rfl
          exact ⟨rfl, hds, List.cons.inj hf |>.1⟩
        · rw [List.concat_eq_append, ← cons_append, ← List.append_assoc] at hsplit
          have hds := (List.append_inj' hsplit rfl).1
          have hslack := hzero e₁ (by rw [hds]; simp)
          omega
      rw [Arg.Gives, hes.2.1] at hgives
      have hnext := ih (ds ++ [(need L f.2, f.2)]) (f := (slack L f, c)) hes
        (by simpa using htiled) (by
          intro d hd
          rcases List.mem_append.mp hd with hd | hd
          · exact hzero d hd
          · rw [List.mem_singleton.mp hd]
            exact Nat.sub_self _) (by
          rw [hgives]
          change _ ≤ slack L f - need L e'.2
          unfold needs
          omega)
      obtain ⟨hlen', es', htiled', hcompact, hcont⟩ := hnext
      refine ⟨hlen'.trans hlen, es', htiled', hcompact, ?_⟩
      rw [hcont, hgives]
      simp

theorem needs_le (h : Tiles L b p es q) : p + needs L es ≤ q := by
  induction es generalizing p with
  | nil => exact h.le
  | cons e es ih =>
    obtain ⟨hspace, -, hvalid, hes⟩ := h
    have hrest := ih hes
    have hneed := hvalid.need_le
    rw [getNext, hspace] at hrest
    rw [needs, map_cons, sum_cons]
    unfold needs at hrest
    omega

theorem needs_congr {es' : List Entry} (h : es'.map snd = es.map snd) :
    needs L es' = needs L es := by
  have hmap : ∀ l : List Entry, needs L l = ((l.map snd).map (need L)).sum := by
    intro l
    rw [List.map_map]
    rfl
  rw [hmap, hmap, h]

theorem Tiled.doubleSize (h : Tiled L t es) (dst : Buffer) (hlen : t.bufLen * 2 < 2 ^ 64) :
    (doubleSize L t dst).bufLen = t.bufLen * 2 ∧
      ∃ es', Tiled L (doubleSize L t dst) es' ∧ Compact L es' ∧
        es'.map snd = es.map snd := by
  have hneeds := needs_le h.tiles
  obtain ⟨e, rest, rfl⟩ := List.exists_cons_of_ne_nil h.nonempty
  obtain ⟨hpos, hwrap, hsize⟩ := cont_of_tiles h.tiles
  rw [needs, map_cons, sum_cons] at hneeds
  obtain ⟨c, hgives, hinit⟩ := init_tiled dst hpos hwrap
    (show _ ≤ t.bufLen * 2 by rw [Arg.strLen, hsize]; omega) hlen
  rw [Arg.Gives, h.tiles.2.1] at hgives
  obtain ⟨hbuf, es', htiled, hcompact, hcont⟩ := copyLoop_spec [] h.tiles hinit nofun (by
    rw [hgives]
    change _ ≤ t.bufLen * 2 - sizeHeader - need L e.2
    unfold needs
    omega)
  have heq : StringTable.doubleSize L t dst = copyLoop L t.buf rest.length sizeHeader
      (Init L (.cont t.buf (sizeHeader + 8)) dst (t.bufLen * 2)) := by
    rw [StringTable.doubleSize, copyEntries, h.numEntries, Nat.mod_eq_of_lt hlen]
    rfl
  rw [heq]
  refine ⟨hbuf, es', htiled, hcompact, ?_⟩
  rw [hcont, hgives]
  rfl

theorem Compact.full (h : Compact L es) (htiles : Tiles L b p es q) {n : ℕ}
    (hfull : ∀ e ∈ es, slack L e < n) : q < p + needs L es + n := by
  obtain ⟨ds, f, rfl, hzero⟩ := h
  induction ds generalizing p with
  | nil =>
    obtain ⟨hspace, -, hvalid, hend⟩ := htiles
    have hf := hfull f mem_cons_self
    have hq : p + space b p = q := hend
    simp only [List.nil_append, needs, map_cons, List.map_nil, sum_cons, List.sum_nil]
    unfold slack at hf
    omega
  | cons d ds ih =>
    obtain ⟨hspace, -, hvalid, hes⟩ := htiles
    have hrest := ih (fun e he => hzero e (List.mem_cons_of_mem _ he)) hes
      fun e he => hfull e (List.mem_cons_of_mem _ he)
    have hd := hzero d mem_cons_self
    have hneed := hvalid.need_le
    rw [getNext, hspace] at hrest
    rw [cons_append, needs, map_cons, sum_cons]
    unfold slack at hd
    unfold needs at hrest
    omega

theorem growLoop_spec (h : Tiled L t es) (hpos : x.Positive L) (hwrap : x.NoWrap L)
    (dst : ℕ → Buffer) {k : ℕ} (hlen : t.bufLen * 2 ^ k < 2 ^ 64)
    (hfit : sizeHeader + needs L es + sizeNeed L (x.strLen L) ≤ t.bufLen * 2 ^ k)
    (hcompact : k = 0 → Compact L es) (hk : k < n) :
    ∃ t' a es', growLoop L x dst n t = some (t', a) ∧ Tiled L t' es' ∧
      Inserts L x (es.map snd) (es'.map snd) := by
  induction n generalizing t es k with
  | zero => exact absurd hk (Nat.not_lt_zero k)
  | succ n ih =>
    obtain ⟨hnone, hsome⟩ := h.allocEntry hpos hwrap
    rw [growLoop]
    cases halloc : t.allocEntry L x with
    | some r =>
      obtain ⟨-, l, e, r', c, rfl, hgives, -, htiled⟩ := hsome r.1 r.2 halloc
      exact ⟨r.1, r.2, _, rfl, htiled, inserts_of_split hgives⟩
    | none =>
      rw [Option.none_or]
      cases k with
      | zero =>
        have hfull := (hcompact rfl).full h.tiles (hnone halloc)
        omega
      | succ k =>
        rw [Nat.pow_succ', ← Nat.mul_assoc] at hlen hfit
        have hdouble : t.bufLen * 2 < 2 ^ 64 :=
          lt_of_le_of_lt (Nat.le_mul_of_pos_right _ (Nat.two_pow_pos k)) hlen
        obtain ⟨hbuf, es', htiled, hes', hcont⟩ := h.doubleSize (dst n) hdouble
        rw [← hbuf] at hlen hfit
        rw [← needs_congr hcont] at hfit
        rw [← hcont]
        exact ih htiled hlen hfit (fun _ => hes') (by omega)

/-! ## Runs -/

def Op.Positive (L : SH) : Op → Prop
  | .allocEntry x | .growEntry x _ => x.Positive L
  | .deleteEntryWithPtr _ | .deleteEntryWithContents _ _ | .doubleSize _ => True

/-- No size wraps: neither that of the new entry nor that of the buffer that it needs. -/
def Op.Fits (L : SH) (t : StrTable) : Op → Prop
  | .allocEntry x => x.NoWrap L
  | .growEntry x _ => x.NoWrap L ∧ ∀ es, Tiled L t es →
      (∃ e ∈ es, sizeNeed L (x.strLen L) ≤ slack L e) ∨ ∃ k, t.bufLen * 2 ^ (k + 1) < 2 ^ 64 ∧
        sizeHeader + needs L es + sizeNeed L (x.strLen L) ≤ t.bufLen * 2 ^ (k + 1)
  | .doubleSize _ => t.bufLen * 2 < 2 ^ 64
  | .deleteEntryWithPtr _ | .deleteEntryWithContents _ _ => True

def Admits (L : SH) : StrTable → List Op → Prop
  | _, [] => True
  | t, op :: ops => op.Fits L t ∧ ∀ t', step L t op = some t' → Admits L t' ops

theorem Tiled.step (h : Tiled L t es) {op : Op} (hpos : op.Positive L) (hfits : op.Fits L t) :
    ∃ t' es', step L t op = some t' ∧ op.Keeps L (es.map snd) (es'.map snd) ∧
      Tiled L t' es' := by
  cases op with
  | allocEntry x =>
    obtain ⟨-, hsome⟩ := h.allocEntry hpos hfits
    refine ⟨t.allocated L x, ?_⟩
    unfold StrTable.allocated
    cases halloc : t.allocEntry L x with
    | none => exact ⟨es, by rw [StringTable.step, StrTable.allocated, halloc], .inl rfl, h⟩
    | some r =>
      obtain ⟨-, l, e, r', c, rfl, hgives, -, htiled⟩ := hsome r.1 r.2 halloc
      refine ⟨_, ?_, .inr (inserts_of_split hgives), htiled⟩
      rw [StringTable.step, StrTable.allocated, halloc]
  | deleteEntryWithPtr old =>
    by_cases hout : old < 0 ∨ t.bufLen ≤ old
    · refine ⟨t, es, ?_, .inl rfl, h⟩
      rw [StringTable.step, StrTable.deleteEntryWithPtr, if_pos hout]
    · obtain ⟨es', htiled, hkeeps⟩ := h.deleteEntry fun cur => ((cur + 8 : ℕ) : ℤ) = old
      refine ⟨_, es', ?_, hkeeps, htiled⟩
      rw [StringTable.step, StrTable.deleteEntryWithPtr, if_neg hout]
  | deleteEntryWithContents src old =>
    by_cases hfew : t.numEntries < 2
    · refine ⟨t, es, ?_, .inl rfl, h⟩
      rw [StringTable.step, StrTable.deleteEntryWithContents, if_pos hfew]
    · obtain ⟨es', htiled, hkeeps⟩ := h.deleteEntry _
      refine ⟨_, es', ?_, hkeeps, htiled⟩
      rw [StringTable.step, StrTable.deleteEntryWithContents, if_neg hfew]
  | doubleSize dst =>
    obtain ⟨-, es', htiled, -, hcont⟩ := h.doubleSize dst hfits
    exact ⟨_, es', rfl, hcont, htiled⟩
  | growEntry x dst =>
    obtain ⟨hwrap, hroom⟩ := hfits
    obtain ⟨t', a, es', hgrow, htiled, hinserts⟩ : ∃ t' a es',
        growLoop L x dst 64 t = some (t', a) ∧ Tiled L t' es' ∧
          Inserts L x (es.map snd) (es'.map snd) := by
      rcases hroom es h with ⟨e, he, hroom⟩ | ⟨k, hlen, hfit⟩
      · obtain ⟨hnone, hsome⟩ := h.allocEntry hpos hwrap
        rw [growLoop]
        cases halloc : t.allocEntry L x with
        | none => exact absurd (hnone halloc e he) (not_lt.mpr hroom)
        | some r =>
          obtain ⟨-, l, e, r', c, rfl, hgives, -, htiled⟩ := hsome r.1 r.2 halloc
          exact ⟨r.1, r.2, _, rfl, htiled, inserts_of_split hgives⟩
      · refine growLoop_spec h hpos hwrap dst hlen hfit nofun ?_
        have hheader := h.tiles.le
        have hpow : 2 ^ (k + 1) < 2 ^ 64 :=
          lt_of_le_of_lt (Nat.le_mul_of_pos_left _ (lt_of_lt_of_le (by decide) hheader)) hlen
        exact (Nat.pow_lt_pow_iff_right (by decide)).mp hpow
    exact ⟨t', es', by rw [StringTable.step, hgrow, Option.map_some], hinserts, htiled⟩

theorem Tiled.follows (h : Tiled L t es) {ops : List Op} (hpos : ∀ op ∈ ops, op.Positive L)
    (hfits : Admits L t ops) : Follows L es t ops := by
  induction ops generalizing t es with
  | nil => exact h
  | cons op ops ih =>
    obtain ⟨t', es', hstep, hkeeps, htiled⟩ := h.step (hpos op mem_cons_self) hfits.1
    exact ⟨h, t', es', hstep, hkeeps, ih htiled
      (fun op hop => hpos op (List.mem_cons_of_mem _ hop)) (hfits.2 t' hstep)⟩

/-- **The entries tile the buffer** in every run in which no size wraps. -/
theorem run_tiles (L : SH) {x : Arg} (buf : Buffer) {blen : ℕ} (hpos : x.Positive L)
    (hwrap : x.NoWrap L) (hlen : sizeHeader + sizeNeed L (x.strLen L) ≤ blen)
    (hblen : blen < 2 ^ 64) (ops : List Op) (hops : ∀ op ∈ ops, op.Positive L)
    (hfits : Admits L (Init L x buf blen) ops) :
    ∃ c, x.Gives L c ∧ Follows L [(blen - sizeHeader, c)] (Init L x buf blen) ops := by
  obtain ⟨c, hgives, htiled⟩ := init_tiled buf hpos hwrap hlen hblen
  exact ⟨c, hgives, htiled.follows hops hfits⟩

/-- A name is entered, is deleted and is entered again in a table that has to grow. -/
theorem run_tiles_grown : ∃ c, (Arg.len 3).Gives DirBufEntry c ∧
    Follows DirBufEntry [(16, c)] (Init DirBufEntry (.len 3) (fun _ => 0) 32)
      [.doubleSize fun _ => 0, .allocEntry (.len 5), .deleteEntryWithPtr 40] :=
  run_tiles (x := .len 3) DirBufEntry (fun _ => 0) (show 0 < 3 % 256 by decide)
    (show 3 + 2 + 14 < 2 ^ 64 by decide) (by decide +kernel) (by decide)
    [.doubleSize fun _ => 0, .allocEntry (.len 5), .deleteEntryWithPtr 40]
    (by simp [Op.Positive, Arg.Positive, DirBufEntry])
    ⟨show 32 * 2 < 2 ^ 64 by decide, fun _ _ => ⟨show 5 + 2 + 14 < 2 ^ 64 by decide,
      fun _ _ => ⟨trivial, fun _ _ => trivial⟩⟩⟩

/-- The third entry needs nothing, and is written over the second one. -/
theorem not_run_tiles : ¬ ∀ (L : SH) (x : Arg) (buf : Buffer) (blen : ℕ) (ops : List Op),
    x.Positive L → x.NoWrap L → sizeHeader + sizeNeed L (x.strLen L) ≤ blen → blen < 2 ^ 64 →
    (∀ op ∈ ops, op.Positive L) →
    ∃ c, x.Gives L c ∧ Follows L [(blen - sizeHeader, c)] (Init L x buf blen) ops := by
  intro h
  obtain ⟨c, -, -, t₁, es₁, h₁, -, -, t₂, es₂, h₂, -, htiled⟩ := h DirBufEntry (.len 3) (fun _ => 0)
    48 [.allocEntry (.len 3), .allocEntry (.len (2 ^ 64 - 16))] (show 0 < 3 % 256 by decide)
    (show 3 + 2 + 14 < 2 ^ 64 by decide) (by decide +kernel) (by decide)
    (by simp [Op.Positive, Arg.Positive, DirBufEntry])
  cases h₁
  cases h₂
  obtain ⟨e₁, e₂, e₃, rfl⟩ := List.length_eq_three.mp
    (htiled.numEntries.symm.trans (by decide +kernel))
  obtain ⟨-, -, -, -, -, -, -, -, -, hend⟩ := htiled.tiles
  exact absurd (show getNext _ _ = 48 from hend) (by decide +kernel)

end K42.StringTable

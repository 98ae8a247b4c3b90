import K42.Io.PathName

/-!
# Lexical path names

`Create` against the lexical reading of a Unix path, and `getUPath` with the way back.
-/

open List (mem_cons mem_cons_self mem_cons_of_mem append_assoc length_append append_nil cons_append)

namespace K42

open Components

namespace PathName

section Lexical

variable {p : List Component} {c : Component} {frp : List UInt8} {t t' : Trace} {N : ℕ}
  {last : Bool}

/-! ### The lexical path -/

/-- The trace is at the lexical path, or at a shorter one. -/
def Behind (t : Trace) (p : List Component) : Prop :=
  t.path = p ∨ t.path.length < p.length

theorem pop_eq_none_iff : t.pop = none ↔ t.Misses := by
  unfold Trace.pop Trace.Misses
  constructor
  · intro hpop
    split_ifs at hpop with hnil hzero hmeets
    exact ⟨hzero, hmeets⟩
  · rintro ⟨hzero, hmeets⟩
    have hnil : t.path ≠ [] := by
      intro hnil
      rw [hnil] at hmeets
      cases hmeets
    rw [if_neg hnil, if_neg hzero, if_pos hmeets]

/-- Where nothing is missed, a pop removes the last component or, with a running length of zero,
all of them. -/
theorem path_pop (h : t.pop = some t') :
    t'.path = if t.npLen = 0 then [] else t.path.dropLast := by
  unfold Trace.pop at h
  split_ifs at h with hnil hzero hmeets
  · cases h
    change t.path = _
    rw [hnil]
    exact (ite_self _).symm
  · cases h
    exact (if_pos hzero).symm
  · cases h
    exact (if_neg hzero).symm

theorem length_path_pop (h : t.pop = some t') : t'.path.length ≤ t.path.length - 1 := by
  rw [path_pop h]
  split
  · exact Nat.zero_le _
  · exact le_of_eq List.length_dropLast

theorem path_pop_of_pair (h : t.pop = some t') (hpair : ¬ t.Missteps [dot, dot]) :
    t'.path = t.path.dropLast := by
  rw [path_pop h]
  split
  case isTrue hzero =>
      have hfew : ¬ 2 ≤ t.path.length := fun hmany => hpair (.inr ⟨hzero, hmany⟩)
      have hdrop : t.path.dropLast.length = 0 := by
        rw [List.length_dropLast]
        omega
      exact (List.length_eq_zero_iff.1 hdrop).symm
  case isFalse => rfl

theorem next_cases (t : Trace) (c : Component) (last : Bool) :
    (t.next c last = some t ∧ ∀ p, lexicalStep p c = p) ∨
      (c ≠ [] ∧ c ≠ [dot] ∧ Trace.Pops c last ∧ t.next c last = t.pop) ∨
        (¬ Trace.Pops c last ∧ t.next c last = some (t.append c) ∧
          ∀ p, lexicalStep p c = p ++ [c]) := by
  unfold Trace.next lexicalStep
  by_cases hnoise : c = [] ∨ c = [dot]
  · simp only [if_pos hnoise]
    exact .inl ⟨trivial, fun _ => trivial⟩
  · simp only [if_neg hnoise]
    obtain ⟨hne, hdot⟩ := not_or.1 hnoise
    right
    by_cases hpops : Trace.Pops c last
    · rw [if_pos hpops]
      exact .inl ⟨hne, hdot, hpops, rfl⟩
    · have hdots : c ≠ [dot, dot] := fun hdots => hpops (.inl hdots)
      simp only [if_neg hpops, if_neg hdots]
      exact .inr ⟨hpops, trivial, fun _ => trivial⟩

theorem lexicalStep_pair (p : List Component) : lexicalStep p [dot, dot] = p.dropLast := rfl

theorem lexicalStep_of_ne (hne : c ≠ []) (hdot : c ≠ [dot]) (hpair : c ≠ [dot, dot]) :
    lexicalStep p c = p ++ [c] := by
  unfold lexicalStep
  rw [if_neg (not_or.2 ⟨hne, hdot⟩), if_neg hpair]

theorem lt_of_missteps (h : Behind t p) (hne : c ≠ []) (hdot : c ≠ [dot]) (hpop : t.pop = some t')
    (hmis : t.Missteps c) : t'.path.length < (lexicalStep p c).length := by
  have hle : t.path.length ≤ p.length := by
    rcases h with heq | hlt
    · rw [heq]
    · exact le_of_lt hlt
  have hpopped := length_path_pop hpop
  by_cases hpair : c = [dot, dot]
  · obtain ⟨hzero, hmany⟩ := (or_iff_right (not_not.2 hpair)).1 hmis
    rw [hpair, lexicalStep_pair, path_pop hpop, if_pos hzero, List.length_dropLast, List.length_nil]
    omega
  · rw [lexicalStep_of_ne hne hdot hpair, length_append, List.length_singleton]
    omega

variable {last : Bool} {bufLen : ℕ}

theorem Behind.shorter (h : t.path.length < p.length) (hnext : t.next c last = some t') :
    t'.path.length < (lexicalStep p c).length ∨ lexicalStep p c = [] ∧ t'.path = [] := by
  rcases next_cases t c last with ⟨hsame, hstep⟩ | ⟨hne, hdot, -, hpop⟩ | ⟨-, happend, hstep⟩
  · rw [hsame] at hnext
    cases hnext
    rw [hstep]
    exact .inl h
  · rw [hpop] at hnext
    by_cases hmis : t.Missteps c
    · exact .inl (lt_of_missteps (.inr h) hne hdot hnext hmis)
    · have hpair : c = [dot, dot] := by
        by_contra hpair
        exact hmis (.inl hpair)
      subst hpair
      rw [lexicalStep_pair, path_pop_of_pair hnext hmis, List.length_dropLast, List.length_dropLast]
      by_cases hempty : t.path = []
      · by_cases hone : p.length = 1
        · right
          constructor
          · apply List.length_eq_zero_iff.1
            rw [List.length_dropLast, hone]
          · rw [hempty]
            rfl
        · rw [hempty, List.length_nil] at h ⊢
          omega
      · have hpos := List.length_pos_iff.2 hempty
        omega
  · rw [happend] at hnext
    cases hnext
    rw [hstep]
    change (t.path ++ [c]).length < _ ∨ _
    rw [length_append, length_append]
    exact .inl (Nat.add_lt_add_right h _)

theorem Behind.next (h : Behind t p) (hnext : t.next c last = some t') :
    Behind t' (lexicalStep p c) := by
  rcases h with rfl | hlt
  · rcases next_cases t c last with ⟨hsame, hstep⟩ | ⟨hne, hdot, -, hpop⟩ | ⟨-, happend, hstep⟩
    · rw [hsame] at hnext
      cases hnext
      rw [hstep]
      exact .inl rfl
    · rw [hpop] at hnext
      by_cases hmis : t.Missteps c
      · exact .inr (lt_of_missteps (.inl rfl) hne hdot hnext hmis)
      · have hpair : c = [dot, dot] := by
          by_contra hpair
          exact hmis (.inl hpair)
        subst hpair
        exact .inl (path_pop_of_pair hnext hmis)
    · rw [happend] at hnext
      cases hnext
      rw [hstep]
      exact .inl rfl
  · rcases Behind.shorter hlt hnext with hlt' | ⟨hempty, hnil⟩
    · exact .inr hlt'
    · exact .inl (hnil.trans hempty.symm)

theorem missteps_of_ne (hnext : t.next c last = some t')
    (hleaves : t'.path ≠ lexicalStep t.path c) :
    c ≠ [] ∧ c ≠ [dot] ∧ Trace.Pops c last ∧ t.Missteps c := by
  rcases next_cases t c last with ⟨hsame, hstep⟩ | ⟨hne, hdot, hpops, hpop⟩ | ⟨-, happend, hstep⟩
  · rw [hsame] at hnext
    cases hnext
    exact absurd (hstep _).symm hleaves
  · rw [hpop] at hnext
    refine ⟨hne, hdot, hpops, ?_⟩
    by_contra hmis
    have hpair : c = [dot, dot] := by
      by_contra hpair
      exact hmis (.inl hpair)
    subst hpair
    exact hleaves (path_pop_of_pair hnext hmis)
  · rw [happend] at hnext
    cases hnext
    exact absurd (hstep _).symm hleaves

/-- The trace ends at the lexical path if and only if it misses nothing and each misstep, also one
that it has made already, is hidden by an empty lexical path. -/
theorem run_lexical_iff (cs : List Component) (h : Behind t p) :
    (∃ u, t.run cs = some u ∧ u.path = lexical p cs) ↔
      (t.path ≠ p → Emptied p cs) ∧ Trace.Benign p t cs := by
  induction cs generalizing t p with
  | nil =>
    constructor
    · rintro ⟨u, hu, hpath⟩
      cases hu
      exact ⟨fun hne => absurd hpath hne, trivial⟩
    · rintro ⟨hempty, -⟩
      refine ⟨t, rfl, ?_⟩
      by_contra hne
      have hp : p = [] := hempty hne
      rcases h with heq | hlt
      · exact hne heq
      · rw [hp] at hlt
        exact Nat.not_lt_zero _ hlt
  | cons c cs ih =>
    rw [Trace.run_cons]
    cases hnext : t.next c cs.isEmpty with
    | none =>
      -- only a pop fails
      have hmisses : c ≠ [] ∧ c ≠ [dot] ∧ Trace.Pops c cs.isEmpty ∧ t.Misses := by
        rcases next_cases t c cs.isEmpty with
          ⟨hsame, -⟩ | ⟨hne, hdot, hpops, hpop⟩ | ⟨-, happ, -⟩
        · rw [hsame] at hnext
          cases hnext
        · rw [hpop] at hnext
          exact ⟨hne, hdot, hpops, pop_eq_none_iff.1 hnext⟩
        · rw [happ] at hnext
          cases hnext
      obtain ⟨hne, hdot, hpops, hmiss⟩ := hmisses
      constructor
      · rintro ⟨u, hu, -⟩
        cases hu
      · rintro ⟨-, hbenign, -⟩
        exact absurd hmiss (hbenign hne hdot hpops).1
    | some v =>
      have hrest := ih (h.next hnext)
      have hgoal : (∃ u, (some v).bind (fun u => u.run cs) = some u ∧
          u.path = lexical p (c :: cs)) ↔
          (v.path ≠ lexicalStep p c → Emptied (lexicalStep p c) cs) ∧
            Trace.Benign (lexicalStep p c) v cs := hrest
      rw [hgoal]
      constructor
      · rintro ⟨hempty, hbenign⟩
        have hshort : v.path.length < (lexicalStep p c).length →
            Emptied (lexicalStep p c) cs := by
          intro hlt
          apply hempty
          intro heq
          rw [heq] at hlt
          exact Nat.lt_irrefl _ hlt
        refine ⟨?_, ?_, ?_⟩
        · intro hne
          rcases Behind.shorter (h.resolve_left hne) hnext with hlt | ⟨hp, -⟩
          · exact .inr (hshort hlt)
          · right
            rw [hp]
            cases cs with
            | nil => exact rfl
            | cons d cs => exact .inl rfl
        · intro hne hdot hpops
          have hpop : t.pop = some v := by
            rw [← hnext]
            unfold Trace.next
            rw [if_neg (not_or.2 ⟨hne, hdot⟩), if_pos hpops]
          refine ⟨?_, fun hmis => hshort (lt_of_missteps h hne hdot hpop hmis)⟩
          rw [← pop_eq_none_iff, hpop]
          exact Option.some_ne_none v
        · intro u hu
          rw [hnext] at hu
          cases hu
          exact hbenign
      · rintro ⟨hempty, hpops, hbenign⟩
        refine ⟨?_, hbenign v hnext⟩
        intro hleaves
        by_cases heq : t.path = p
        · subst heq
          obtain ⟨hne, hdot, hpop, hmis⟩ := missteps_of_ne hnext hleaves
          exact (hpops hne hdot hpop).2 hmis
        · have hp : p ≠ [] := by
            rintro rfl
            exact Nat.not_lt_zero _ (h.resolve_left heq)
          exact (hempty heq).resolve_left hp

/-! ## `getUPath` and back -/

/-- The buffers in which `getUPath` does not write behind the end: for the empty path, those with
room for a slash and a null, and for another one those whose length is not that of the Unix path
of some of its first components, of none or of all. -/
def Roomy (p : List Component) (bufLen : ℕ) : Prop :=
  if p = [] then 2 ≤ bufLen else ∀ q, q <+: p → size q ≠ bufLen

/-- No component but the last one is a dot and one more character. -/
def Plain (p : List Component) : Prop := ∀ c ∈ p.dropLast, ¬ (c.length = 2 ∧ c.head? = some dot)

theorem returns_inj {r : Created} {q : List Component} (hp : ∀ c ∈ p, Fits c)
    (hq : ∀ c ∈ q, Fits c) (h : Returns r p) (h' : Returns r q) : p = q := by
  obtain ⟨np, len⟩ := r
  cases np with
  | none => exact (h.2 : p = []).trans (h'.2 : q = []).symm
  | some b =>
    have hstored : Stored b.bytes p := h.2.2
    have hstored' : Stored b.bytes q := h'.2.2
    have hsize : size p = size q := h.1.symm.trans h'.1
    unfold Stored at hstored hstored'
    rw [hsize, hstored'] at hstored
    exact encode_inj hp hq hstored.symm

theorem fits_lexical {start cs : List Component} (hstart : ∀ c ∈ start, Fits c)
    (hcs : ∀ c ∈ cs, c.length ≤ 255) : ∀ c ∈ lexical start cs, Fits c := by
  induction cs generalizing start with
  | nil => exact hstart
  | cons c cs ih =>
    apply ih
    · unfold lexicalStep
      split_ifs with hnoise hpair
      · exact hstart
      · exact fun d hd => hstart d ((List.dropLast_sublist _).mem hd)
      · intro d hd
        rcases List.mem_append.1 hd with hd | hd
        · exact hstart d hd
        · rw [List.mem_singleton.1 hd]
          have hle := hcs c mem_cons_self
          exact ⟨List.length_pos_iff.2 (not_or.1 hnoise).1, Nat.lt_succ_of_le hle⟩
    · exact fun d hd => hcs d (mem_cons_of_mem _ hd)

theorem create_lexical_iff {junk : Bytes.Buffer} {unixPath : List UInt8} {start : List Component}
    (hinput : Input unixPath) (hstart : WellFormed start) (hlarge : Large unixPath start bufLen) :
    (∃ r, Create junk unixPath (encode start) bufLen = .ok r ∧
      Returns r (lexical start (unixPath.splitOn slash))) ↔
        Trace.Benign start (begin start) (unixPath.splitOn slash) := by
  have hbehind : Behind (begin start) start := .inl rfl
  have htrace := run_lexical_iff (unixPath.splitOn slash) hbehind
  have hbenign : Trace.Benign start (begin start) (unixPath.splitOn slash) ↔
      ∃ u, (begin start).run (unixPath.splitOn slash) = some u ∧
        u.path = lexical start (unixPath.splitOn slash) := by
    rw [htrace]
    exact ⟨fun h => ⟨fun hne => absurd rfl hne, h⟩, fun h => h.2⟩
  rw [hbenign]
  have hcreate : _ ∨ ∃ r t, Create junk unixPath (encode start) bufLen = .ok r ∧ _ :=
    create_eq hinput hstart hlarge
  rcases hcreate with ⟨hfault, hnone⟩ | ⟨r, t, hr, hreturns, hfits, hrun⟩
  · rw [hfault, hnone]
    constructor
    · rintro ⟨r, hr, -⟩
      cases hr
    · rintro ⟨u, hu, -⟩
      cases hu
  · rw [hr, hrun]
    constructor
    · rintro ⟨r', hr', hreturns'⟩
      cases hr'
      refine ⟨t, rfl, ?_⟩
      exact returns_inj hfits (fits_lexical (fun c hc => (hstart c hc).1) hinput.short) hreturns
        hreturns'
    · rintro ⟨u, hu, hpath⟩
      cases hu
      rw [hpath] at hreturns
      exact ⟨r, rfl, hreturns⟩

end Lexical

end PathName

end K42

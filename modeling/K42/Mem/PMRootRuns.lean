import K42.Mem.PMRoot

/-!
# No frame is lost

A thread has frames on its stack only between two sections that pass them on, and the list
of a caller is empty once `freeList` has taken it over. With this every section finds the
lists it writes to in order, so every frame stays in one place in every interleaving.
-/

namespace K42

namespace PMRoot

variable {ρ τ α : Type} [DecidableEq ρ] [DecidableEq τ] [DecidableEq α]

/-- The thread has frames on its stack. -/
def Pc.carries : Pc ρ α → Bool
  | .pushing _ | .refilling _ _ => true
  | _ => false

/-- The list of the caller has been taken over. -/
def Pc.emptied : Pc ρ α → Bool
  | .pushing (.trim _ _) | .trimming _ _ | .setting (some _) | .levelling _ _ (some _) | .failed =>
    true
  | _ => false

/-- What a thread relies on at its place. -/
structure Ready (σ : Store ρ τ α) (t : τ) (p : Pc ρ α) : Prop where
  stack : (σ.lists (.stack t)).count = 0 ↔ p.carries = false
  caller : p.emptied = true → (σ.lists (.caller t)).count = 0
  frame : ∀ r x, p = .freeing r x → x ∈ σ.bags (.hands t)
  list : ∀ r err, p = .splicing r err → (σ.lists (.caller t)).count ≠ 0

/-- The invariant, of the store and of where the threads are. -/
structure Inv (σ : Store ρ τ α) (pc : τ → Pc ρ α) : Prop where
  kept : σ.Kept
  ready : ∀ t, Ready σ t (pc t)
  noFault : σ.faulted = false
  noEmpty : σ.emptyFreed = false

/-- The lists that a section of the thread may change. -/
def Own (t : τ) : ListOf ρ τ → Prop
  | .stack u | .caller u => u = t
  | _ => True

def OwnBag (t : τ) : Bag τ → Prop
  | .hands u => u = t
  | .pinned => True

variable {s : PMRoot ρ τ α} {σ σ' : Store ρ τ α} {pc : τ → Pc ρ α} {t : τ} {p : Pc ρ α}
  {Ls : List (ListOf ρ τ)} {Bs : List (Bag τ)}

omit [DecidableEq ρ] [DecidableEq α] in
/-- **Frame rule.** What a thread does with its own lists, and with those of the
representatives and the root, does not concern the other threads. -/
theorem Inv.goto (hs : Inv σ pc) (hw : Store.Within σ σ' Ls Bs) (hL : ∀ K ∈ Ls, Own t K)
    (hB : ∀ B ∈ Bs, OwnBag t B) (hready : Ready σ' t p) : Inv σ' (Function.update pc t p) where
  kept := hw.kept
  ready := by
    intro u
    by_cases hu : u = t
    · subst u
      rw [Function.update_self]
      exact hready
    · rw [Function.update_of_ne hu]
      have hstack := hw.lists (.stack u) fun hmem => hu (hL _ hmem)
      have hcaller := hw.lists (.caller u) fun hmem => hu (hL _ hmem)
      have hhands := hw.bags (.hands u) fun hmem => hu (hB _ hmem)
      obtain ⟨h₁, h₂, h₃, h₄⟩ := hs.ready u
      exact ⟨hstack ▸ h₁, hcaller ▸ h₂, hhands ▸ h₃, hcaller ▸ h₄⟩
  noFault := hw.faulted.trans hs.noFault
  noEmpty := hw.emptyFreed.trans hs.noEmpty

section

omit [DecidableEq ρ] [DecidableEq τ] [DecidableEq α]

theorem ready_plain (hstack : (σ.lists (.stack t)).count = 0) (hp : p.carries = false)
    (hemptied : p.emptied = false) (hfree : ∀ r x, p ≠ .freeing r x)
    (hsplice : ∀ r err, p ≠ .splicing r err) : Ready σ t p where
  stack := ⟨fun _ => hp, fun _ => hstack⟩
  caller := by
    intro h
    rw [hemptied] at h
    cases h
  frame := fun r x h => absurd h (hfree r x)
  list := fun r err h => absurd h (hsplice r err)

theorem ready_emptied (hstack : (σ.lists (.stack t)).count = 0) (hp : p.carries = false)
    (hcaller : (σ.lists (.caller t)).count = 0) (hfree : ∀ r x, p ≠ .freeing r x)
    (hsplice : ∀ r err, p ≠ .splicing r err) : Ready σ t p where
  stack := ⟨fun _ => hp, fun _ => hstack⟩
  caller := fun _ => hcaller
  frame := fun r x h => absurd h (hfree r x)
  list := fun r err h => absurd h (hsplice r err)

end

section

omit [DecidableEq ρ] [DecidableEq α]

theorem Inv.next (hs : Inv s.toStore s.pc) (hw : Store.Within s.toStore σ Ls Bs)
    (hL : ∀ K ∈ Ls, Own t K) (hB : ∀ B ∈ Bs, OwnBag t B) (hready : Ready σ t p) :
    Inv (s.goto t p σ).toStore (s.goto t p σ).pc :=
  hs.goto hw hL hB hready

theorem Inv.stay (hs : Inv s.toStore s.pc) (hready : Ready s.toStore t p) :
    Inv (s.goto t p s.toStore).toStore (s.goto t p s.toStore).pc := by
  have hw : Store.Within s.toStore s.toStore [] [] := .refl hs.kept
  exact hs.goto hw (by simp) (by simp) hready

end

variable {r : ρ} {k : Option Bool} {w : Option ℕ} {err : Bool}

section

variable (hs : Inv s.toStore s.pc)

include hs

theorem freeFrame_inv {x : α} (hpc : s.pc t = .freeing r x) :
    Inv (s.freeFrame t r x).toStore (s.freeFrame t r x).pc := by
  have hready := hs.ready t
  rw [hpc] at hready
  have hstack := hready.stack.2 rfl
  have hx := hready.frame r x rfl
  unfold freeFrame
  split
  · -- memory is low: the frame goes to the pinned allocator
    obtain ⟨hw, -⟩ := Store.dealloc_within hs.kept (.rep r)
    have hx' : x ∈ (s.toStore.deallocListOfPages (.rep r)).bags (.hands t) := by
      rw [hw.bags (.hands t) (by simp)]
      exact hx
    obtain ⟨hw', -⟩ := Store.pass_within (C := .pinned) hw.kept hx' nofun
    have hboth := hw.trans hw'
    refine hs.next hboth (by simp [Own]) (by simp [OwnBag]) ?_
    refine ready_plain ?_ rfl rfl nofun nofun
    rw [hboth.lists (.stack t) (by simp)]
    exact hstack
  · obtain ⟨hw, hcount⟩ := Store.put_within (L := .rep r) hs.kept hx
    have hstack' : ((s.toStore.put (.rep r) (.hands t) x).lists (.stack t)).count = 0 := by
      rw [hw.lists (.stack t) (by simp)]
      exact hstack
    simp only
    split
    · exact hs.next hw (by simp [Own]) (by simp [OwnBag])
        (ready_plain hstack' rfl rfl nofun nofun)
    · -- the last header goes to the stack of the thread
      obtain ⟨hw', hiff⟩ := Store.moveTail_within (L := .rep r) (M := .stack t) hw.kept nofun hstack'
      refine hs.next (hw.trans hw') (by simp [Own]) (by simp [OwnBag]) ?_
      refine ⟨?_, nofun, nofun, nofun⟩
      rw [hiff, hcount]
      exact ⟨nofun, nofun⟩

theorem freeFreeFrameList_inv {k : After ρ} (hpc : s.pc t = .pushing k) :
    Inv (s.freeFreeFrameList t k).toStore (s.freeFreeFrameList t k).pc := by
  have hready := hs.ready t
  rw [hpc] at hready
  have hstack : (s.lists (.stack t)).count ≠ 0 := by
    intro hzero
    cases hready.stack.1 hzero
  obtain ⟨hw, hempty, -⟩ := Store.freeList_within (L := .root) (M := .stack t) hs.kept nofun hstack
  unfold freeFreeFrameList
  cases k with
  | done =>
    exact hs.next hw (by simp [Own]) (by simp) (ready_plain hempty rfl rfl nofun nofun)
  | trim r err =>
    refine hs.next hw (by simp [Own]) (by simp) (ready_emptied hempty rfl ?_ nofun nofun)
    rw [hw.lists (.caller t) (by simp)]
    exact hready.caller rfl

theorem got_inv {x : α}
    (hw : Store.Within s.toStore σ Ls Bs) (hL : ∀ K ∈ Ls, Own t K) (hB : ∀ B ∈ Bs, OwnBag t B)
    (hx : x ∈ σ.bags (.hands t)) (hstack : (σ.lists (.stack t)).count = 0) :
    Inv (s.got t r w x σ).toStore (s.got t r w x σ).pc := by
  unfold got
  cases w with
  | none => exact hs.next hw hL hB (ready_plain hstack rfl rfl nofun nofun)
  | some count =>
    obtain ⟨hw', -⟩ := Store.put_within (L := .caller t) hw.kept hx
    refine hs.next (hw.trans hw') ?_ ?_ (ready_plain ?_ rfl rfl nofun nofun)
    · intro K hK
      rcases List.mem_append.1 hK with hK | hK
      · exact hL K hK
      · rw [List.mem_singleton.1 hK]
        rfl
    · intro B hB'
      rcases List.mem_append.1 hB' with hB' | hB'
      · exact hB B hB'
      · rw [List.mem_singleton.1 hB']
        rfl
    · rw [hw'.lists (.stack t) (by simp)]
      exact hstack

theorem getFrame_inv
    (hpc : s.pc t = .getting r w) : Inv (s.getFrame t r w).toStore (s.getFrame t r w).pc := by
  have hready := hs.ready t
  rw [hpc] at hready
  have hstack := hready.stack.2 rfl
  unfold getFrame
  rcases Store.take_within hs.kept (.rep r) (.hands t) with
    ⟨-, htake⟩ | ⟨σ, x, htake, hw, hx, -⟩
  · rw [htake]
    exact hs.stay (ready_plain hstack rfl rfl nofun nofun)
  · rw [htake]
    refine got_inv hs hw (by simp [Own]) (by simp [OwnBag]) hx ?_
    rw [hw.lists (.stack t) (by simp)]
    exact hstack

theorem fetch_inv (hpc : s.pc t = .fetching r w) :
    Inv (s.fetch t r w).toStore (s.fetch t r w).pc := by
  have hready := hs.ready t
  rw [hpc] at hready
  have hstack := hready.stack.2 rfl
  obtain ⟨hw, -⟩ := Store.moveHead_within (L := .root) (M := .stack t) hs.kept nofun hstack
  unfold fetch
  simp only
  split
  · rename_i hzero
    cases w with
    | none => exact hs.next hw (by simp [Own]) (by simp) (ready_plain hzero rfl rfl nofun nofun)
    | some count =>
      exact hs.next hw (by simp [Own]) (by simp) (ready_plain hzero rfl rfl nofun nofun)
  · rename_i hzero
    refine hs.next hw (by simp [Own]) (by simp) ⟨?_, nofun, nofun, nofun⟩
    exact ⟨fun h => absurd h hzero, nofun⟩

theorem refill_inv
    (hpc : s.pc t = .refilling r w) : Inv (s.refill t r w).toStore (s.refill t r w).pc := by
  have hready := hs.ready t
  rw [hpc] at hready
  have hstack : (s.lists (.stack t)).count ≠ 0 := by
    intro hzero
    cases hready.stack.1 hzero
  obtain ⟨hw, hempty, hcount⟩ :=
    Store.freeList_within (L := .rep r) (M := .stack t) hs.kept nofun hstack
  unfold refill
  rcases Store.take_within hw.kept (.rep r) (.hands t) with
    ⟨hzero, -⟩ | ⟨σ, x, htake, hw', hx, -⟩
  · exact absurd hzero hcount
  · rw [htake]
    refine got_inv hs (hw.trans hw') (by simp [Own]) (by simp [OwnBag]) hx ?_
    rw [hw'.lists (.stack t) (by simp)]
    exact hempty

theorem takeList_inv {count : ℕ} (hpc : s.pc t = .taking r count) :
    Inv (s.takeList t r count).toStore (s.takeList t r count).pc := by
  have hready := hs.ready t
  rw [hpc] at hready
  have hw := Store.getList_within (L := .rep r) (M := .caller t) hs.kept nofun count
  have hstack := hw.lists (.stack t) (by simp)
  unfold takeList
  refine hs.next hw (by simp [Own]) (by simp) (ready_plain ?_ rfl rfl nofun nofun)
  exact (congrArg FreeFrameList.count hstack).trans (hready.stack.2 rfl)

theorem allocPages_inv {count : ℕ} (page : Option α) (hpc : s.pc t = .allocating r count) :
    Inv (s.allocPages t r count page).toStore (s.allocPages t r count page).pc := by
  have hready := hs.ready t
  rw [hpc] at hready
  have hstack := hready.stack.2 rfl
  have hfail : Inv (s.goto t (.testing r true) s.toStore).toStore
      (s.goto t (.testing r true) s.toStore).pc :=
    hs.stay (ready_plain hstack rfl rfl nofun nofun)
  unfold allocPages
  cases page with
  | none => exact hfail
  | some x =>
    simp only
    split
    · rename_i hx
      obtain ⟨hw, hx'⟩ := Store.pass_within (C := .hands t) hs.kept hx nofun
      refine got_inv hs hw (by simp) (by simp [OwnBag]) hx' ?_
      rw [hw.lists (.stack t) (by simp)]
      exact hstack
    · exact hfail

theorem drain_inv (hpc : s.pc t = .draining err) :
    Inv (s.drain t err).toStore (s.drain t err).pc := by
  have hready := hs.ready t
  rw [hpc] at hready
  have hstack := hready.stack.2 rfl
  unfold drain
  rcases Store.take_within hs.kept (.caller t) .pinned with
    ⟨hzero, htake⟩ | ⟨σ, x, htake, hw, -, -⟩
  · rw [htake]
    exact hs.stay (ready_emptied hstack rfl hzero nofun nofun)
  · rw [htake]
    refine hs.next hw (by simp [Own]) (by simp [OwnBag]) (ready_plain ?_ rfl rfl nofun nofun)
    rw [hw.lists (.stack t) (by simp)]
    exact hstack

end

omit [DecidableEq ρ] [DecidableEq τ] [DecidableEq α] in
theorem ready_endOf (hstack : (σ.lists (.stack t)).count = 0)
    (hcaller : (σ.lists (.caller t)).count = 0) : Ready σ t (endOf (some err)) := by
  cases err with
  | false => exact ready_emptied hstack rfl hcaller nofun nofun
  | true => exact ready_emptied hstack rfl hcaller nofun nofun

theorem trim_inv (hs : Inv s.toStore s.pc) (r : ρ) (err : Bool)
    (hw : Store.Within s.toStore σ Ls Bs) (hL : ∀ K ∈ Ls, Own t K) (hB : ∀ B ∈ Bs, OwnBag t B)
    (hstack : (σ.lists (.stack t)).count = 0) (hcaller : (σ.lists (.caller t)).count = 0) :
    Inv (s.trim t r err σ).toStore (s.trim t r err σ).pc := by
  unfold trim
  split
  · rename_i hmany
    obtain ⟨hw', hiff⟩ := Store.moveTail_within (L := .rep r) (M := .stack t) hw.kept nofun hstack
    refine hs.next (hw.trans hw') ?_ ?_ ⟨?_, fun _ => ?_, nofun, nofun⟩
    · intro K hK
      rcases List.mem_append.1 hK with hK | hK
      · exact hL K hK
      · rcases List.mem_cons.1 hK with rfl | hK
        · trivial
        · rw [List.mem_singleton.1 hK]
          rfl
    · intro B hB'
      rw [List.append_nil] at hB'
      exact hB B hB'
    · rw [hiff]
      exact ⟨fun h => by omega, nofun⟩
    · rw [hw'.lists (.caller t) (by simp)]
      exact hcaller
  · exact hs.next hw hL hB (ready_endOf hstack hcaller)

theorem splice_inv (hs : Inv s.toStore s.pc) (hpc : s.pc t = .splicing r err) :
    Inv (s.trim t r err (s.toStore.freeList (.rep r) (.caller t))).toStore
      (s.trim t r err (s.toStore.freeList (.rep r) (.caller t))).pc := by
  have hready := hs.ready t
  rw [hpc] at hready
  obtain ⟨hw, hempty, -⟩ := Store.freeList_within (L := .rep r) (M := .caller t) hs.kept nofun
    (hready.list r err rfl)
  refine trim_inv hs r err hw (by simp [Own]) (by simp) ?_ hempty
  rw [hw.lists (.stack t) (by simp)]
  exact hready.stack.2 rfl

omit [DecidableEq ρ] [DecidableEq τ] [DecidableEq α] in
theorem ready_after {p : Pc ρ α} (hstack : (σ.lists (.stack t)).count = 0)
    (hcaller : k.isSome = true → (σ.lists (.caller t)).count = 0)
    (hp : p = endOf k ∨ ∃ rs newLevel, p = .levelling rs newLevel k) : Ready σ t p := by
  rcases hp with rfl | ⟨rs, newLevel, rfl⟩ <;> cases k with
  | none => exact ready_plain hstack rfl rfl nofun nofun
  | some err =>
    first
    | exact ready_endOf hstack (hcaller rfl)
    | exact ready_emptied hstack rfl (hcaller rfl) nofun nofun

section

variable (hs : Inv s.toStore s.pc)

include hs

theorem setMemLevel_inv (newLevel : MemLevelState) (hpc : s.pc t = .setting k) :
    Inv (s.setMemLevel t k newLevel).toStore (s.setMemLevel t k newLevel).pc := by
  have hready := hs.ready t
  rw [hpc] at hready
  have hstack := hready.stack.2 rfl
  have hcaller : k.isSome = true → (s.lists (.caller t)).count = 0 := by
    intro hk
    obtain ⟨err, rfl⟩ := Option.isSome_iff_exists.1 hk
    exact hready.caller rfl
  unfold setMemLevel
  split
  · exact hs.stay (ready_after hstack hcaller (.inl rfl))
  · simp only
    split
    · -- the list of the root goes back through the stack of the thread
      have hroot : ∃ Ls, Store.Within s.toStore
          (if 0 < (s.lists .root).count then s.toStore.freeList (.stack t) .root else s.toStore)
            Ls [] ∧ ∀ K ∈ Ls, K = .stack t ∨ K = .root := by
        split
        · rename_i hpos
          obtain ⟨hw, -⟩ := Store.freeList_within (L := .stack t) (M := .root) hs.kept nofun
            (Nat.pos_iff_ne_zero.1 hpos)
          exact ⟨_, hw, by simp⟩
        · exact ⟨[], .refl hs.kept, by simp⟩
      obtain ⟨Ls, hw, hLs⟩ := hroot
      obtain ⟨hw', hempty⟩ := Store.dealloc_within hw.kept (.stack t)
      have hboth := hw.trans hw'
      have hown : ∀ K ∈ Ls ++ [.stack t], Own t K := by
        intro K hK
        rcases List.mem_append.1 hK with hK | hK
        · rcases hLs K hK with rfl | rfl
          · rfl
          · trivial
        · rw [List.mem_singleton.1 hK]
          rfl
      refine hs.next hboth hown (by simp [OwnBag]) (ready_after hempty ?_ (.inr ⟨_, _, rfl⟩))
      intro hk
      rw [hboth.lists (.caller t) ?_]
      · exact hcaller hk
      · intro hmem
        rcases List.mem_append.1 hmem with hmem | hmem
        · rcases hLs _ hmem with h | h <;> cases h
        · cases List.mem_singleton.1 hmem
    · exact hs.stay (ready_after hstack hcaller (.inr ⟨_, _, rfl⟩))

theorem setRepLevel_inv {rs : List ρ} {newLevel : MemLevelState}
    (hpc : s.pc t = .levelling rs newLevel k) :
    Inv (s.setRepLevel t rs newLevel k).toStore (s.setRepLevel t rs newLevel k).pc := by
  have hready := hs.ready t
  rw [hpc] at hready
  have hstack := hready.stack.2 rfl
  have hcaller : k.isSome = true → (s.lists (.caller t)).count = 0 := by
    intro hk
    obtain ⟨err, rfl⟩ := Option.isSome_iff_exists.1 hk
    exact hready.caller rfl
  unfold setRepLevel
  cases rs with
  | nil => exact hs.stay (ready_after hstack hcaller (.inl rfl))
  | cons r rs =>
    simp only
    split
    · obtain ⟨hw, -⟩ := Store.dealloc_within hs.kept (.rep r)
      refine hs.next hw (by simp [Own]) (by simp [OwnBag])
        (ready_after ?_ ?_ (.inr ⟨_, _, rfl⟩))
      · rw [hw.lists (.stack t) (by simp)]
        exact hstack
      · intro hk
        rw [hw.lists (.caller t) (by simp)]
        exact hcaller hk
    · exact hs.stay (ready_after hstack hcaller (.inr ⟨_, _, rfl⟩))

/-! ## Whole runs -/

theorem run_inv (t : τ) (page : Option α) (newLevel : MemLevelState)
    (hframes : s.hasFrames (.run t page newLevel)) :
    Inv (s.run t page newLevel).toStore (s.run t page newLevel).pc := by
  have hready := hs.ready t
  unfold run
  split <;> rename_i hpc
  · exact hs
  · rw [hpc] at hready
    exact hs.stay (ready_plain (hready.stack.2 rfl) rfl rfl nofun nofun)
  · exact freeFrame_inv hs hpc
  · exact freeFreeFrameList_inv hs hpc
  · exact getFrame_inv hs hpc
  · exact fetch_inv hs hpc
  · exact refill_inv hs hpc
  · exact takeList_inv hs hpc
  · rw [hpc] at hready
    exact hs.stay (ready_plain (hready.stack.2 rfl) rfl rfl nofun nofun)
  · rw [hpc] at hready
    exact hs.stay (ready_plain (hready.stack.2 rfl) rfl rfl nofun nofun)
  · exact allocPages_inv hs page hpc
  · rename_i r err
    have hframes : (s.currMemLevel r).IsLow = true ∨ (s.lists (.caller t)).count ≠ 0 := by
      have := hframes r
      rw [hpc] at this
      exact this rfl
    rw [hpc] at hready
    have hstack := hready.stack.2 rfl
    split
    · exact hs.stay (ready_plain hstack rfl rfl nofun nofun)
    · rename_i hlow
      refine hs.stay ⟨⟨fun _ => rfl, fun _ => hstack⟩, nofun, nofun, fun _ _ _ => ?_⟩
      exact hframes.resolve_left hlow
  · exact drain_inv hs hpc
  · exact splice_inv hs hpc
  · rename_i r err
    rw [hpc] at hready
    have hw : Store.Within s.toStore s.toStore [] [] := .refl hs.kept
    exact trim_inv hs r err hw (by simp) (by simp) (hready.stack.2 rfl) (hready.caller rfl)
  · exact setMemLevel_inv hs newLevel hpc
  · exact setRepLevel_inv hs hpc

omit [DecidableEq ρ] [DecidableEq α] in
theorem Inv.between (hpc : s.pc t = .idle)
    (hw : Store.Within s.toStore σ Ls Bs) (hL : ∀ K ∈ Ls, K = .caller t)
    (hB : ∀ B ∈ Bs, OwnBag t B) : Inv σ s.pc := by
  have hready := hs.ready t
  rw [hpc] at hready
  have hstack : (σ.lists (.stack t)).count = 0 := by
    rw [hw.lists (.stack t) fun hmem => nomatch hL _ hmem]
    exact hready.stack.2 rfl
  have hgoto := hs.goto (p := .idle) hw (fun K hK => hL K hK ▸ rfl) hB
    (ready_plain hstack rfl rfl nofun nofun)
  rwa [← hpc, Function.update_eq_self] at hgoto

/-- **Step.** -/
theorem Inv.step (op : Op ρ τ α) (hadm : s.adm op)
    (hframes : s.hasFrames op) : Inv (s.step op).toStore (s.step op).pc := by
  cases op with
  | call t c =>
    have hidle : s.pc t = .idle := by
      cases c with
      | freeFrame r x => exact hadm.1
      | getFrame r => exact hadm
      | freeList r => exact hadm
      | getFreeFrameList r count => exact hadm
      | setMemLevel => exact hadm
    have hready := hs.ready t
    rw [hidle] at hready
    have hstack := hready.stack.2 rfl
    refine hs.stay ?_
    cases c with
    | freeFrame r x =>
      refine ⟨⟨fun _ => rfl, fun _ => hstack⟩, nofun, ?_, nofun⟩
      rintro r' x' ⟨⟩
      exact hadm.2
    | getFrame r => exact ready_plain hstack rfl rfl nofun nofun
    | freeList r => exact ready_plain hstack rfl rfl nofun nofun
    | getFreeFrameList r count => exact ready_plain hstack rfl rfl nofun nofun
    | setMemLevel => exact ready_plain hstack rfl rfl nofun nofun
  | run t page newLevel => exact run_inv hs t page newLevel hframes
  | takeOwn t =>
    rcases Store.take_within hs.kept (.caller t) (.hands t) with
      ⟨-, htake⟩ | ⟨σ, x, htake, hw, -, -⟩
    · rw [PMRoot.step, htake]
      exact hs
    · rw [PMRoot.step, htake]
      exact hs.between hadm hw (by simp) (by simp [OwnBag])
  | putOwn t x =>
    obtain ⟨hw, -⟩ := Store.put_within (L := .caller t) hs.kept hadm.2
    exact hs.between hadm.1 hw (by simp) (by simp [OwnBag])
  | allocPinned t x =>
    obtain ⟨hw, -⟩ := Store.pass_within (C := .hands t) hs.kept hadm.2 nofun
    exact hs.between hadm.1 hw (by simp) (by simp [OwnBag])
  | freePinned t x =>
    obtain ⟨hw, -⟩ := Store.pass_within (C := .pinned) hs.kept hadm.2 nofun
    exact hs.between hadm.1 hw (by simp) (by simp [OwnBag])
  | write t x next prev pages =>
    have hw := Store.write_within hs.kept hadm.2 next prev pages
    exact hs.between hadm.1 hw (by simp) (by simp)

end

omit [DecidableEq ρ] [DecidableEq α] in
theorem init_inv (exploitMultiRep : Bool) (firstRep : ρ) (repArray : List ρ) {pinned : List α}
    (hnodup : pinned.Nodup) (hall : ∀ x, x ∈ pinned) :
    Inv (init exploitMultiRep firstRep repArray pinned : PMRoot ρ τ α).toStore
      (init exploitMultiRep firstRep repArray pinned : PMRoot ρ τ α).pc where
  kept := by
    refine ⟨fun _ => [], fun _ => .init, ?_, ?_, ?_⟩
    · rintro (L | (_ | t))
      · exact List.nodup_nil
      · exact hnodup
      · exact List.nodup_nil
    · exact fun x => ⟨.bag .pinned, hall x⟩
    · -- only the bag of the allocator has something in it
      have hpinned : ∀ {x : α} {i : Place ρ τ}, x ∈ (init exploitMultiRep firstRep repArray pinned :
          PMRoot ρ τ α).toStore.contents (fun _ => []) i → i = .bag .pinned := by
        rintro x (L | (_ | t)) h
        · cases h
        · rfl
        · cases h
      intro x i j hi hj
      exact (hpinned hi).trans (hpinned hj).symm
  ready := fun _ => ready_plain rfl rfl rfl nofun nofun
  noFault := rfl
  noEmpty := rfl

/-- Every frame is in one place, once; a `getFreeFrameList` that fails leaves its caller
with an empty list and keeps nothing itself; no null link has been followed, and no empty
list been freed. -/
structure Sound (s : PMRoot ρ τ α) : Prop where
  conserved : ∃ chunks, (∀ L, FreeFrameList.Holds s.frames (s.lists L) (chunks L)) ∧
    (∀ P, (s.toStore.contents chunks P).Nodup) ∧ ∀ x, ∃! P, x ∈ s.toStore.contents chunks P
  failed : ∀ t, s.pc t = .failed → s.lists (.caller t) = .init ∧ s.lists (.stack t) = .init
  noNull : s.faulted = false
  noEmpty : s.emptyFreed = false

omit [DecidableEq ρ] [DecidableEq τ] [DecidableEq α] in
theorem Inv.sound (hs : Inv s.toStore s.pc) : s.Sound := by
  obtain ⟨chunks, hkept⟩ := hs.kept
  have hinit : ∀ L, (s.lists L).count = 0 → s.lists L = .init := by
    intro L hzero
    have hholds := hkept.holds L
    rw [hkept.count_eq_zero.1 hzero] at hholds
    exact hholds.eq_init
  refine ⟨⟨chunks, hkept.holds, hkept.conserved.nodup, hkept.conserved.exactlyOne⟩, ?_,
    hs.noFault, hs.noEmpty⟩
  intro t hpc
  have hready := hs.ready t
  rw [hpc] at hready
  exact ⟨hinit _ (hready.caller rfl), hinit _ (hready.stack.2 rfl)⟩

/-- In every interleaving in which `freeList` is entered with frames on the list, or with
memory low, no frame is lost or duplicated. -/
theorem run_conserves (exploitMultiRep : Bool) (firstRep : ρ) (repArray : List ρ)
    {pinned : List α} (hnodup : pinned.Nodup) (hall : ∀ x, x ∈ pinned)
    {ops : List (Op ρ τ α)} {s : PMRoot ρ τ α}
    (h : nonEmptyInterleavings.Run (init exploitMultiRep firstRep repArray pinned) ops s) :
    s.Sound := by
  refine Inv.sound (h.invariant (I := fun s => Inv s.toStore s.pc) ?_ ?_)
  · exact init_inv exploitMultiRep firstRep repArray hnodup hall
  · rintro s op hs ⟨hadm, hframes⟩
    exact hs.step op hadm hframes

/-! ## The frames in hand -/

/-- A `freeFrame` or `getFrame` of a caller is where its frame changes hands. -/
def Pc.trades : Pc ρ α → Bool
  | .freeing _ _ | .getting _ none | .refilling _ none => true
  | _ => false

section

variable (σ : Store ρ τ α) (L M : ListOf ρ τ) (u : τ)

theorem Store.take_pinned_hands : (σ.take L .pinned).1.bags (.hands u) = σ.bags (.hands u) := by
  unfold Store.take
  split
  · rfl
  · rfl
  · simp

theorem Store.dealloc_hands : (σ.deallocListOfPages L).bags (.hands u) = σ.bags (.hands u) := by
  unfold Store.deallocListOfPages
  generalize (σ.lists L).count = n
  induction n generalizing σ with
  | zero => rfl
  | succ n ih =>
    have htake := σ.take_pinned_hands L u
    rw [Store.deallocLoop]
    split
    · rename_i heq
      rwa [heq] at htake
    · rename_i σ' x heq
      rw [heq] at htake
      exact (ih σ').trans htake

theorem Store.freeList_bags : (σ.freeList L M).bags = σ.bags := by
  unfold Store.freeList
  dsimp only
  split <;> rfl

/-- A frame that is taken for `getFreeFrameList` goes to its list at once. -/
theorem take_got_bags (s : PMRoot ρ τ α) (t : τ) (r : ρ) (count : ℕ) (p : Pc ρ α) :
    (match σ.take L (.hands t) with
      | (σ, some x) => s.got t r (some count) x σ
      | (σ, none) => s.goto t p σ).bags = σ.bags := by
  unfold Store.take
  cases FreeFrameList.getFrame σ.frames (σ.lists L) with
  | none => rfl
  | some f =>
    obtain ⟨F, l, _ | x⟩ := f
    · rfl
    · simp [got, goto, Store.put]

theorem trim_bags (s : PMRoot ρ τ α) (t : τ) (r : ρ) (err : Bool) :
    (s.trim t r err σ).bags = σ.bags := by
  unfold trim
  split <;> rfl

end

/-- No other section changes the frames in the hands of any thread: a `getFreeFrameList`, whether it
fails or not, leaves them as they are. -/
theorem run_hands (htrades : (s.pc t).trades = false) (page : Option α)
    (newLevel : MemLevelState) (u : τ) :
    (s.run t page newLevel).bags (.hands u) = s.bags (.hands u) := by
  unfold run
  cases hpc : s.pc t with
  | idle | failed => rfl
  | freeing r x =>
    rw [hpc] at htrades
    cases htrades
  | pushing k => cases k <;> exact congrFun (Store.freeList_bags _ _ _) _
  | getting r w =>
    obtain _ | count := w
    · rw [hpc] at htrades
      cases htrades
    · exact congrFun (take_got_bags _ _ s t r count _) _
  | fetching r w =>
    unfold fetch
    cases w <;> dsimp only <;> split <;> rfl
  | refilling r w =>
    obtain _ | count := w
    · rw [hpc] at htrades
      cases htrades
    · have hbags := take_got_bags (s.toStore.freeList (.rep r) (.stack t)) (.rep r) s t r count .idle
      rw [Store.freeList_bags] at hbags
      exact congrFun hbags _
  | taking r count =>
    dsimp only [takeList, Store.getList]
    split <;> rfl
  | looping r count => cases count <;> rfl
  | allocating r count =>
    dsimp only [allocPages]
    split
    · split
      · by_cases hu : u = t
        · simp [got, goto, Store.put, Store.pass, hu]
        · simp [got, goto, Store.put, Store.pass, hu]
      · rfl
    · rfl
  | testing r err => dsimp only; split <;> rfl
  | draining err =>
    have htake := s.toStore.take_pinned_hands (.caller t) u
    dsimp only [drain]
    split <;> (rename_i heq; rwa [heq] at htake)
  | splicing r err => exact congrFun ((trim_bags _ s t r err).trans (Store.freeList_bags _ _ _)) _
  | trimming r err => exact congrFun (trim_bags _ s t r err) _
  | setting k =>
    dsimp only [setMemLevel]
    split
    · rfl
    · cases newLevel.IsLow with
      | false => rfl
      | true =>
        refine (Store.dealloc_hands _ _ u).trans ?_
        split
        · exact congrFun (Store.freeList_bags _ _ _) _
        · rfl
  | levelling rs level k =>
    cases rs with
    | nil => rfl
    | cons r rs =>
      dsimp only [setRepLevel]
      cases level.IsLow with
      | false => rfl
      | true => exact Store.dealloc_hands _ _ u

/-! ## Two runs -/

instance (s : PMRoot ρ τ α) : (p : Pc ρ α) → Decidable (s.lockFree p)
  | .pushing _ | .fetching .. | .setting _ => inferInstanceAs (Decidable (_ = _))
  | .idle | .failed | .freeing .. | .getting .. | .refilling .. | .taking .. | .looping ..
  | .allocating .. | .testing .. | .draining _ | .splicing .. | .trimming .. | .levelling .. =>
    isTrue trivial

instance (s : PMRoot ρ τ α) : (op : Op ρ τ α) → Decidable (s.adm op)
  | .call _ (.freeFrame ..) | .putOwn .. | .allocPinned .. | .freePinned .. | .write .. =>
    inferInstanceAs (Decidable (_ ∧ _))
  | .call _ (.getFrame _) | .call _ (.freeList _) | .call _ (.getFreeFrameList ..)
  | .call _ .setMemLevel | .takeOwn _ => inferInstanceAs (Decidable (_ = _))
  | .run t _ _ => inferInstanceAs (Decidable (s.lockFree (s.pc t)))

instance (s : PMRoot ρ τ α) : (op : Op ρ τ α) → Decidable (s.hasFrames op)
  | .run .. => inferInstanceAs (Decidable (∀ _, _ → _))
  | .call .. | .takeOwn _ | .putOwn .. | .allocPinned .. | .freePinned .. | .write .. =>
    isTrue trivial

instance (s : PMRoot ρ τ α) (op : Op ρ τ α) : Decidable (interleavings.adm s op) :=
  inferInstanceAs (Decidable (s.adm op))

instance (s : PMRoot ρ τ α) (op : Op ρ τ α) : Decidable (nonEmptyInterleavings.adm s op) :=
  inferInstanceAs (Decidable (s.adm op ∧ s.hasFrames op))

open scoped SmallFin

/-- Two threads, one representative, and two frames. -/
def small : PMRoot Unit Bool (Fin 2) := init true () [()] [0, 1]

/-- A thread goes through one turn of the loop of `getFreeFrameList`, with all lists empty. -/
def turn (page : Option (Fin 2)) : List (Op Unit Bool (Fin 2)) :=
  List.replicate 3 (.run false none .HIGH) ++ [.run false page .HIGH]

/-- There are two frames, and three are asked for. -/
def twoOfThree : List (Op Unit Bool (Fin 2)) :=
  [.call false (.getFreeFrameList () 3), .run false none .HIGH] ++ turn (some 0) ++ turn (some 1) ++
    turn none ++ List.replicate 2 (.run false none .HIGH)

theorem run_conserves_twoOfThree :
    let s := twoOfThree.foldl nonEmptyInterleavings.step small
    nonEmptyInterleavings.Run small twoOfThree s ∧ s.pc false = .failed ∧
      (s.lists (.rep ())).count = 2 ∧ s.Sound := by
  intro s
  have hadmits : nonEmptyInterleavings.Admits small twoOfThree := by decide +kernel
  exact ⟨hadmits.run, by decide +kernel, by decide +kernel,
    run_conserves true () [()] (by decide) (by decide) hadmits.run⟩

/-- One frame is asked for, and there is none; the other thread frees a frame before the
list, which is empty, is given back. -/
def noneOfOne : List (Op Unit Bool (Fin 2)) :=
  [Op.allocPinned true 0, .allocPinned true 1, .call false (.getFreeFrameList () 1),
    .run false none .HIGH] ++ turn none ++
    [Op.call true (.freeFrame () 0), .run true none .HIGH] ++
    List.replicate 2 (Op.run false none .HIGH)

/-- The null tail of the empty list is followed. -/
theorem sound_noneOfOne :
    let s := noneOfOne.foldl interleavings.step small
    interleavings.Run small noneOfOne s ∧ s.emptyFreed = true ∧ s.faulted = true ∧ ¬ s.Sound := by
  intro s
  have hadmits : interleavings.Admits small noneOfOne := by decide +kernel
  have hfault : s.faulted = true := by decide +kernel
  refine ⟨hadmits.run, by decide +kernel, hfault, fun hs => ?_⟩
  cases hfault.symm.trans hs.noNull

end PMRoot

end K42

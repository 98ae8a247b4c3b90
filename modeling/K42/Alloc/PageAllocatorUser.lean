import K42.Alloc.PageAllocatorFit

/-!
# The page allocators of the memory nodes

A program has a page allocator for each memory node. `PageAllocatorUser` overrides
`getMoreMem`: it asks the kernel for a region in the addresses of its node and frees
the region into itself, so a search that found no space is tried again. When a node
has no memory left, the others are meant to be tried.

The allocator of a node is named by the number of the node. The kernel is a
parameter: it grants a region or refuses, and it has only so many regions to grant.
-/

namespace K42

open MachineWord

namespace PageAllocatorUser

/-! ## Data model -/

/-- The part of the kernel behind `bindRegionToNode`: a region of the given size in
the addresses of the node, or `none` with nothing changed. The addresses of a node
run out, so grants do not go on for ever. -/
structure RegionServer (K : Type*) where
  bindRegionToNode : K → ℕ → ℕ → Option (ℕ × K)
  room : K → ℕ
  room_lt : ∀ k node size v k', bindRegionToNode k node size = some (v, k') → room k' < room k

/-- `repByNumaNode` up to `maxNumaNodeNum`; nodes without an allocator are null. -/
abbrev Reps : Type := List (Option PageAllocatorDefault)

/-- `repByNumaNode[node]`, null above `maxNumaNodeNum`. -/
def Reps.rep (reps : Reps) (node : ℕ) : Option PageAllocatorDefault := (reps[node]?).join

/-- The result of a request; `badNode` is the status `-1`. -/
inductive Rc
  | addr (ptr : ℕ)
  | failure (f : Failure)
  | badNode
deriving DecidableEq

/-- `_SGENCD(rc) == ENOMEM`. -/
def Rc.isENOMEM : Rc → Bool
  | .failure (.serror _ _ .ENOMEM) => true
  | _ => false

/-- The result of a request with the allocator that served it and the kernel. -/
structure Reply (K : Type*) where
  rc : Rc
  pa : PageAllocatorDefault
  k : K

abbrev PAGEALLOC_FIXED : ℕ := 2

/-- `LOCAL_NUMANODE`, `VPNum(-1)`. -/
abbrev LOCAL_NUMANODE : ℕ := UVAL - 1

/-- `PAGE_ALLOCATOR_USER_SIZE`. -/
abbrev PAGE_ALLOCATOR_USER_SIZE : ℕ := 2 ^ 28

/-! ## One allocator -/

section Code

variable {K : Type*} (server : RegionServer K)

/-- A method of `PageAllocatorDefault` from its label `retry` on, with the `getMoreMem`
of the node `numaNode`. `search` is the search of the method, which fails or takes the
pages. -/
def retry (search : PageAllocatorDefault → Except Failure (PageAllocatorDefault × ℕ))
    (size numaNode : ℕ) (pa : PageAllocatorDefault) (k : K) : Reply K :=
  match search pa with
  | .ok (pa', ptr) => ⟨.addr ptr, pa', k⟩
  | .error (.serror ec cc gc) =>
    let reqSize := max size PAGE_ALLOCATOR_USER_SIZE
    match _h : server.bindRegionToNode k numaNode reqSize with
    | none => ⟨.failure (.serror ec cc gc), pa, k⟩
    | some (vaddr, k') =>
      match pa.deallocPages vaddr reqSize with
      | .ok pa' => retry search size numaNode pa' k'
      | .error (.serror _ _ _) => ⟨.failure .passert, pa, k'⟩
      | .error f => ⟨.failure f, pa, k'⟩
  | .error f => ⟨.failure f, pa, k⟩
termination_by server.room k
decreasing_by exact server.room_lt _ _ _ _ _ ‹_›

/-- A request: for pages, or for pages at an alignment. -/
inductive Request
  | allocPages (size : ℕ)
  | allocPagesAligned (size align offset : ℕ)
deriving DecidableEq

/-- `PageAllocatorDefault::allocPages` and `PageAllocatorDefault::allocPagesAligned`,
called on the allocator of the node. -/
def Request.attempt (numaNode : ℕ) : Request → PageAllocatorDefault → K → Reply K
  | .allocPages size =>
    retry server (·.allocPages size) (PageAllocatorDefault.pageRoundUp size) numaNode
  | .allocPagesAligned size align offset =>
    retry server (·.allocPagesAligned size align offset)
      (PageAllocatorDefault.pageRoundUp size) numaNode

/-! ## The allocators of all nodes -/

/-- The loop over the nodes, from node `i` on. The allocator found is compared with
`this`, and the attempt is made on `this` again. -/
def tryOthers (attempt : PageAllocatorDefault → K → Reply K) (this : ℕ) :
    ℕ → Reps → Reply K → Reply K
  | _, [], r => r
  | i, none :: reps, r => tryOthers attempt this (i + 1) reps r
  | i, some _ :: reps, r =>
    if i = this then tryOthers attempt this (i + 1) reps r
    else
      let r' := attempt r.pa r.k
      match r'.rc with
      | .failure (.serror _ _ _) => tryOthers attempt this (i + 1) reps r'
      | _ => r'

/-- A request made to the allocator of the node `this` for its own node. -/
def allocLocal (reps : Reps) (this : ℕ) (req : Request) (flags : ℕ) (pa : PageAllocatorDefault)
    (k : K) : Reply K :=
  let r := req.attempt server this pa k
  if r.rc.isENOMEM = true ∧ flags &&& PAGEALLOC_FIXED = 0 then
    tryOthers (req.attempt server this) this 0 reps r
  else r

/-- The node whose allocator works on a request made on `this`. -/
def target (this node : ℕ) : ℕ := if node ≠ LOCAL_NUMANODE then node else this

/-- A request made to the allocator of the node `this` with the argument `node`. -/
def alloc (reps : Reps) (this : ℕ) (req : Request) (flags node : ℕ) (k : K) : Rc × Reps × K :=
  match reps.rep (target this node) with
  | none => (if node ≠ LOCAL_NUMANODE then .badNode else .failure .fault, reps, k)
  | some pa =>
    let r := allocLocal server reps (target this node) req flags pa k
    (r.rc, reps.set (target this node) (some r.pa), r.k)

/-- `PageAllocatorUser::allocPages`. -/
def allocPages (reps : Reps) (this size flags node : ℕ) (k : K) : Rc × Reps × K :=
  alloc server reps this (.allocPages size) flags node k

/-- `PageAllocatorUser::allocPagesAligned`. -/
def allocPagesAligned (reps : Reps) (this size align offset flags node : ℕ) (k : K) :
    Rc × Reps × K :=
  alloc server reps this (.allocPagesAligned size align offset) flags node k

end Code

/-! ## The attempts on the other nodes -/

section Proofs

variable {K : Type*} {server : RegionServer K}

section Retry

variable {search : PageAllocatorDefault → Except Failure (PageAllocatorDefault × ℕ)}
  {size numaNode : ℕ} {pa : PageAllocatorDefault} {k : K}

theorem retry_found {pa' : PageAllocatorDefault} {ptr : ℕ} (hs : search pa = .ok (pa', ptr)) :
    retry server search size numaNode pa k = ⟨.addr ptr, pa', k⟩ := by
  rw [retry, hs]

theorem retry_refused {ec cc : ℕ} {gc : Errno} (hs : search pa = .error (.serror ec cc gc))
    (hb : server.bindRegionToNode k numaNode (max size PAGE_ALLOCATOR_USER_SIZE) = none) :
    retry server search size numaNode pa k = ⟨.failure (.serror ec cc gc), pa, k⟩ := by
  rw [retry, hs]
  dsimp only
  split
  · rfl
  · next hb' => exact absurd (hb.symm.trans hb') nofun

theorem retry_again {r : Reply K} {ec cc : ℕ} {gc : Errno}
    (h : retry server search size numaNode pa k = r) (hrc : r.rc = .failure (.serror ec cc gc)) :
    retry server search size numaNode r.pa r.k = r := by
  fun_induction retry server search size numaNode pa k with
  | case1 pa k pa' ptr hs =>
    subst h
    cases hrc
  | case2 pa k ec' cc' gc' hs reqSize hb =>
    subst h
    exact retry_refused hs hb
  | case3 pa k ec' cc' gc' hs reqSize vaddr k' hb pa' hd ih => exact ih h
  | case4 =>
    subst h
    cases hrc
  | case5 pa k ec' cc' gc' hs reqSize vaddr k' hb f hf hd =>
    subst h
    exact absurd (Rc.failure.inj hrc) (hf ec cc gc)
  | case6 pa k f hf hs =>
    subst h
    exact absurd (Rc.failure.inj hrc) (hf ec cc gc)

end Retry

theorem attempt_again {req : Request} {node : ℕ} {pa : PageAllocatorDefault} {k : K}
    {r : Reply K} {ec cc : ℕ} {gc : Errno} (h : req.attempt server node pa k = r)
    (hrc : r.rc = .failure (.serror ec cc gc)) : req.attempt server node r.pa r.k = r := by
  cases req with
  | allocPages size => exact retry_again h hrc
  | allocPagesAligned size align offset => exact retry_again h hrc

theorem Rc.isENOMEM_iff {rc : Rc} :
    rc.isENOMEM = true ↔ ∃ ec cc, rc = .failure (.serror ec cc .ENOMEM) := by
  constructor
  · intro h
    unfold isENOMEM at h
    split at h
    · exact ⟨_, _, rfl⟩
    · cases h
  · rintro ⟨ec, cc, rfl⟩
    rfl

theorem tryOthers_eq {attempt : PageAllocatorDefault → K → Reply K} {this : ℕ} {r : Reply K}
    {ec cc : ℕ} {gc : Errno} (hrc : r.rc = .failure (.serror ec cc gc))
    (hagain : attempt r.pa r.k = r) (i : ℕ) (reps : Reps) :
    tryOthers attempt this i reps r = r := by
  induction reps generalizing i with
  | nil => rfl
  | cons rep reps ih =>
    cases rep with
    | none => exact ih (i + 1)
    | some pa =>
      simp only [tryOthers, hagain, hrc]
      split
      · exact ih (i + 1)
      · exact ih (i + 1)

theorem allocLocal_eq (reps : Reps) (this : ℕ) (req : Request) (flags : ℕ)
    (pa : PageAllocatorDefault) (k : K) :
    allocLocal server reps this req flags pa k = req.attempt server this pa k := by
  rw [allocLocal]
  split
  · next h =>
      obtain ⟨ec, cc, hrc⟩ := Rc.isENOMEM_iff.mp h.1
      exact tryOthers_eq hrc (attempt_again rfl hrc) 0 reps
  · rfl

end Proofs

/-! ## When a request is refused -/

section Refusal

variable {K : Type*} (server : RegionServer K) (reps : Reps) (k : K) (req : Request)

/-- The allocator of the node can satisfy the request, if need be with regions that the
kernel grants it. -/
def CanSatisfy (node : ℕ) : Prop :=
  ∃ pa ptr, reps.rep node = some pa ∧ (req.attempt server node pa k).rc = .addr ptr

/-- The allocator of the node has no memory for the request. -/
def Exhausted (node : ℕ) : Prop :=
  ∃ pa, reps.rep node = some pa ∧ (req.attempt server node pa k).rc.isENOMEM = true

/-- The result is ENOMEM only if no node's allocator can satisfy the request. -/
def OnlyIfNoNode (rc : Rc) : Prop :=
  rc.isENOMEM = true → ∀ node, ¬ CanSatisfy server reps k req node

variable {server reps k req}

theorem Exhausted.not_canSatisfy {node : ℕ} (h : Exhausted server reps k req node) :
    ¬ CanSatisfy server reps k req node := by
  rintro ⟨pa', ptr, hrep', hptr⟩
  obtain ⟨pa, hrep, hrc⟩ := h
  obtain rfl := Option.some.inj (hrep.symm.trans hrep')
  rw [hptr] at hrc
  cases hrc

theorem alloc_enomem_iff (this flags node : ℕ) :
    (alloc server reps this req flags node k).1.isENOMEM = true ↔
      Exhausted server reps k req (target this node) := by
  rw [alloc]
  cases hrep : reps.rep (target this node) with
  | none =>
    constructor
    · dsimp only
      split <;> exact nofun
    · rintro ⟨pa, hpa, -⟩
      exact absurd (hrep.symm.trans hpa) nofun
  | some pa =>
    simp only [allocLocal_eq]
    constructor
    · exact fun h => ⟨pa, hrep, h⟩
    · rintro ⟨pa', hpa, h⟩
      obtain rfl := Option.some.inj (hrep.symm.trans hpa)
      exact h

theorem onlyIfNoNode_alloc_iff (this flags node : ℕ) :
    OnlyIfNoNode server reps k req (alloc server reps this req flags node k).1 ↔
      ¬ Exhausted server reps k req (target this node) ∨
        ∀ other ≠ target this node, ¬ CanSatisfy server reps k req other := by
  rw [OnlyIfNoNode, alloc_enomem_iff]
  constructor
  · intro h
    by_cases hex : Exhausted server reps k req (target this node)
    · exact .inr fun other _ => h hex other
    · exact .inl hex
  · rintro (hnot | hothers) hex other
    · exact absurd hex hnot
    · by_cases heq : other = target this node
      · rw [heq]
        exact hex.not_canSatisfy
      · exact hothers other heq

end Refusal

/-- Both calls return ENOMEM only if no node's allocator can satisfy the request, exactly if
the allocator asked has memory for the request or no other one can satisfy it. -/
theorem alloc_onlyIfNoNode_iff {K : Type*} (server : RegionServer K) (reps : Reps) (k : K)
    (this size align offset flags node : ℕ) : (OnlyIfNoNode server reps k (.allocPages size)
        (allocPages server reps this size flags node k).1 ↔
      ¬ Exhausted server reps k (.allocPages size) (target this node) ∨
        ∀ other ≠ target this node, ¬ CanSatisfy server reps k (.allocPages size) other) ∧
    (OnlyIfNoNode server reps k (.allocPagesAligned size align offset)
        (allocPagesAligned server reps this size align offset flags node k).1 ↔
      ¬ Exhausted server reps k (.allocPagesAligned size align offset) (target this node) ∨
        ∀ other ≠ target this node,
          ¬ CanSatisfy server reps k (.allocPagesAligned size align offset) other) :=
  ⟨onlyIfNoNode_alloc_iff this flags node, onlyIfNoNode_alloc_iff this flags node⟩

/-- A kernel that has no region left. -/
def refusing : RegionServer Unit where
  bindRegionToNode _ _ _ := none
  room _ := 0
  room_lt _ _ _ _ _ h := by cases h

/-- Nine pages in the addresses of node 1, the first made into records. -/
def nodeOneHeap : PageAllocatorDefault :=
  ⟨.node .nil ⟨2 ^ 50 + 0x10000, 2 ^ 50 + 0x11000, 0x8000⟩ .nil,
    (List.range 127).map (2 ^ 50 + 0x10020 + 32 * ·), 0x8000, [2 ^ 50 + 0x10000]⟩

/-- Node 0 has given all its pages away, node 1 none. -/
def oneExhausted : Reps :=
  [some (PageAllocatorDefault.nineHeap.step (.allocPages 0x8000)), some nodeOneHeap]

theorem oneExhausted_reachable :
    ∀ pa, some pa ∈ oneExhausted → PageAllocatorDefault.Reachable pa := by
  intro pa hpa
  have hinit : PageAllocatorDefault.init (2 ^ 50 + 0x10000) 0x9000 = .ok nodeOneHeap := by
    decide +kernel
  simp only [oneExhausted, List.mem_cons, Option.some.injEq, List.not_mem_nil, or_false] at hpa
  rcases hpa with rfl | rfl
  · refine ⟨0x10000, 0x9000, _, [.allocPages 0x8000], by decide, by decide, by decide,
      PageAllocatorDefault.init_nineHeap, .snoc .nil ?_⟩
    exact (by decide : 0 < 0x8000 ∧ 0x8000 < UVAL)
  · exact ⟨_, _, _, [], by decide, by decide, by decide, hinit, .nil⟩

theorem not_onlyIfNoNode {req : Request}
    {search : PageAllocatorDefault → Except Failure (PageAllocatorDefault × ℕ)} {size : ℕ}
    (ec ptr : ℕ) (hreq : ∀ node, req.attempt refusing node = retry refusing search size node)
    (hzero : search (PageAllocatorDefault.nineHeap.step (.allocPages 0x8000)) =
      .error (.serror ec 0 .ENOMEM)) (hone : (search nodeOneHeap).map Prod.snd = .ok ptr) :
    ¬ OnlyIfNoNode refusing oneExhausted () req
        (alloc refusing oneExhausted 0 req 0 LOCAL_NUMANODE ()).1 := by
  intro h
  obtain ⟨⟨pa', ptr'⟩, hfound, rfl⟩ := map_eq_ok hone
  refine h ((alloc_enomem_iff 0 0 LOCAL_NUMANODE).mpr ⟨_, rfl, ?_⟩) 1 ⟨_, ptr', rfl, ?_⟩
  · rw [hreq, retry_refused hzero rfl]
    rfl
  · rw [hreq, retry_found hfound]

/-- The allocator of node 0 is tried twice, the one of node 1 not at all. -/
theorem alloc_tries_own_node_again :
    (∀ pa, some pa ∈ oneExhausted → PageAllocatorDefault.Reachable pa) ∧
    ¬ OnlyIfNoNode refusing oneExhausted () (.allocPages 0x1000)
        (allocPages refusing oneExhausted 0 0x1000 0 LOCAL_NUMANODE ()).1 ∧
    ¬ OnlyIfNoNode refusing oneExhausted () (.allocPagesAligned 0x1000 0x1000 0)
        (allocPagesAligned refusing oneExhausted 0 0x1000 0x1000 0 0 LOCAL_NUMANODE ()).1 := by
  refine ⟨oneExhausted_reachable, ?_, ?_⟩
  · exact not_onlyIfNoNode 1474 (2 ^ 50 + 0x11000) (fun _ => rfl) (by decide +kernel)
      (by decide +kernel)
  · exact not_onlyIfNoNode 1476 (2 ^ 50 + 0x11000) (fun _ => rfl) (by decide +kernel)
      (by decide +kernel)

end PageAllocatorUser

end K42

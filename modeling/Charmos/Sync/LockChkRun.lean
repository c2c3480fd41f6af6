import Charmos.Sync.LockChkSpec

/-!
# The lock-order validator is sound and complete

An acquisition that gets as far as the search is refused for a cycle exactly when its new edges
would close one, and whatever it is refused for, the graph and the map of the lock are as they were
(`prepareAcq_spec`). So in every run the graph has no cycle whose edges conflict in mode at every
node (`lockChkRun_sound`).
-/

namespace Charmos.LockChk

open Function List Relation

variable {g g' : LockChkGraph} {map : LockChkMap} {req : LockChkAcqReq} {cls subclass i b : ℕ}
  {bits : BitVec 8} {src dst start target : LockChkDep} {held : List LockChkHeld}
  {ds : List LockChkDep} {v : LockChkVisits} {d : LockChkDep} {base : ℕ}

/-! ### The edges of an acquisition -/

/-- The dependencies of the locks before are left out, and those of the others are there. -/
private theorem heldDepsFrom_or (prior : List LockChkHeld) :
    (d ∈ heldDepsFrom prior held ∨ ∃ h ∈ prior, h.order = true ∧ d = ⟨h.node, h.mode⟩) ↔
      ∃ h ∈ prior ++ held, h.order = true ∧ d = ⟨h.node, h.mode⟩ := by
  induction held generalizing prior with
  | nil => simp [heldDepsFrom]
  | cons x held ih =>
    have hrep : depRepeated prior x = true ↔
        ∃ p ∈ prior, p.order = true ∧ p.node = x.node ∧ p.mode = x.mode := by
      simp [depRepeated, and_assoc]
    rw [append_cons, ← ih (prior ++ [x]), heldDepsFrom]
    grind

/-- The dependencies of the held locks are those of the locks that are checked for order. -/
theorem mem_heldDeps : d ∈ heldDeps held ↔ ∃ h ∈ held, h.order = true ∧ d = ⟨h.node, h.mode⟩ := by
  simpa [heldDeps] using heldDepsFrom_or [] (d := d)

/-- The edges from held locks to a lock. -/
def heldEdges (held : List LockChkHeld) (dst : LockChkDep) : Set LockChkEdge :=
  { e | ∃ h ∈ held, h.order = true ∧ e = makeEdge ⟨h.node, h.mode⟩ dst }

private theorem mem_heldEdges {e : LockChkEdge} :
    e ∈ heldEdges held dst ↔ ∃ d ∈ heldDeps held, e = makeEdge d dst := by
  refine ⟨?_, ?_⟩
  · rintro ⟨h, hh, ho, he⟩
    exact ⟨_, mem_heldDeps.mpr ⟨h, hh, ho, rfl⟩, he⟩
  · rintro ⟨d, hd, he⟩
    obtain ⟨h, hh, ho, rfl⟩ := mem_heldDeps.mp hd
    exact ⟨h, hh, ho, he⟩

/-- The new edges close a cycle if and only if one that is missing is reached from its own head. -/
theorem heldEdges_cycle_iff (h : GraphOk g) (held : List LockChkHeld) (dst : LockChkDep) :
    HasLockCycle (g.edgeSet ∪ heldEdges held dst) ↔
    ∃ d ∈ heldDeps held, findEdge g d dst = false ∧ Reaches g.edgeSet dst d := by
  have hsame : ∀ a ∈ heldEdges held dst, ∀ b ∈ heldEdges held dst, ∀ c, Joins a c → Joins b c := by
    rintro a ⟨x, -, -, rfl⟩ b ⟨y, -, -, rfl⟩ c hjoin
    exact hjoin
  refine (hasEdgeCycle_union h.acyclic hsame).trans ⟨?_, ?_⟩
  · rintro ⟨n, hn, hpath⟩
    obtain ⟨d, hd, rfl⟩ := mem_heldEdges.mp hn
    refine ⟨d, hd, ?_, reaches_iff.mpr hpath⟩
    -- an edge of the graph is on no cycle
    rw [← Bool.not_eq_true, h.findEdge_iff]
    intro hedge
    obtain ⟨e, hpath, hjoin⟩ := hpath
    exact h.acyclic ⟨_, hedge, TransGen.tail' hpath ⟨hedge, hjoin⟩⟩
  · rintro ⟨d, hd, -, hreach⟩
    exact ⟨_, mem_heldEdges.mpr ⟨d, hd, rfl⟩, reaches_iff.mp hreach⟩

/-- The first loop of `add_held_deps` finds the cycles, and else counts the missing edges. -/
theorem checkHeldDeps_spec (h : TableOk g) (hdst : dst.node < g.nodes.length)
    (ds : List LockChkDep) (m : ℕ) :
    ∃ r v, checkHeldDeps dst ds m g = some (r, { g with visits := v }) ∧
      TableOk { g with visits := v } ∧
      (r = none ↔ ∃ d ∈ ds, findEdge g d dst = false ∧ Reaches g.edgeSet dst d) ∧
      ∀ k, r = some k → k = m + ds.countP fun d => !findEdge g d dst := by
  induction ds generalizing g m with
  | nil =>
    refine ⟨some m, g.visits, rfl, h, iff_of_false nofun ?_, fun k hk => (Option.some.inj hk).symm⟩
    rintro ⟨d, hd, -⟩
    cases hd
  | cons d ds ih =>
    cases hf : findEdge g d dst with
    | true =>
      obtain ⟨r, v, hr, hok, hiff, hcount⟩ := ih h hdst m
      refine ⟨r, v, ?_, hok, ?_, ?_⟩
      · rw [checkHeldDeps, if_pos hf]
        exact hr
      · rw [hiff, exists_mem_cons_iff]
        exact (or_iff_right fun hd => Bool.false_ne_true (hd.1.symm.trans hf)).symm
      · intro k hk
        rw [hcount k hk, countP_cons_of_neg (by simp [hf])]
    | false =>
      obtain ⟨p, v₁, hpath, hok₁, hp⟩ := graphPath_spec h hdst d
      cases p with
      | true =>
        refine ⟨none, v₁, ?_, hok₁, iff_of_true rfl ⟨d, mem_cons_self, hf, hp.mp rfl⟩, nofun⟩
        rw [checkHeldDeps, if_neg (by simp [hf]), hpath]
        rfl
      | false =>
        obtain ⟨r, v, hr, hok, hiff, hcount⟩ := ih hok₁ hdst (m + 1)
        refine ⟨r, v, ?_, hok, ?_, ?_⟩
        · rw [checkHeldDeps, if_neg (by simp [hf]), hpath]
          exact hr
        · rw [hiff, exists_mem_cons_iff]
          exact (or_iff_right fun hd => Bool.false_ne_true (hp.mpr hd.2)).symm
        intro k hk
        have := hcount k hk
        rw [countP_cons_of_pos (by simp [hf]), this]
        change m + 1 + ds.countP (fun d => !findEdge g d dst) = _
        omega

/-- An edge is published. -/
theorem TableOk.publishEdge (h : TableOk g) (hsrc : src.node < g.nodes.length)
    (hdst : dst.node < g.nodes.length) (hroom : g.edges.length < lockChkMaxEdges) :
    TableOk (publishEdge g src dst) := by
  refine h.modify (fun _ => ⟨rfl, rfl⟩) (fun i n hn => ?_) (fun e he => ?_) ?_
  · rw [filter_append, ← h.out i n hn]
    by_cases hi : src.node = i
    · rw [if_pos hi, filter_cons_of_pos (by simpa [makeEdge] using hi), filter_nil]
    · rw [if_neg hi, filter_cons_of_neg (by simpa [makeEdge] using hi), filter_nil, append_nil]
  · rcases mem_append.mp he with he | he
    · exact h.inside e he
    · rw [mem_singleton.mp he]
      exact ⟨hsrc, hdst⟩
  · rw [length_append, length_singleton]
    omega

/-- The second loop of `add_held_deps` publishes what the first one has counted. -/
theorem publishHeldDeps_spec (h : TableOk g) (hdst : dst.node < g.nodes.length)
    (ds : List LockChkDep) (hds : ∀ d ∈ ds, d.node < g.nodes.length)
    (hroom : g.edges.length + ds.countP (fun d => !findEdge g d dst) ≤ lockChkMaxEdges) :
    TableOk (publishHeldDeps dst ds g) ∧
      (∀ e, e ∈ (publishHeldDeps dst ds g).edges ↔ e ∈ g.edges ∨ ∃ d ∈ ds, e = makeEdge d dst) ∧
      (publishHeldDeps dst ds g).nodes.length = g.nodes.length := by
  induction ds generalizing g with
  | nil => exact ⟨h, by simp [publishHeldDeps], rfl⟩
  | cons d ds ih =>
    have hrest : ∀ x ∈ ds, x.node < g.nodes.length := fun x hx => hds x (mem_cons_of_mem _ hx)
    cases hf : findEdge g d dst with
    | true =>
      rw [countP_cons_of_neg (by simp [hf])] at hroom
      obtain ⟨hok, hmem, hlen⟩ := ih h hdst hrest hroom
      rw [publishHeldDeps, if_pos hf]
      refine ⟨hok, fun e => ?_, hlen⟩
      have hor : e ∈ g.edges ∨ e = makeEdge d dst ↔ e ∈ g.edges :=
        or_iff_left_of_imp fun he => he ▸ h.findEdge_iff.mp hf
      rw [hmem, exists_mem_cons_iff, ← or_assoc, hor]
    | false =>
      rw [countP_cons_of_pos (by simp [hf])] at hroom
      have hpub := h.publishEdge (hds d mem_cons_self) hdst (by omega)
      have hlen₁ : (publishEdge g d dst).nodes.length = g.nodes.length := length_modify ..
      -- publishing one edge makes no other one missing
      have hfewer : ds.countP (fun x => !findEdge (publishEdge g d dst) x dst) ≤
          ds.countP fun x => !findEdge g x dst := by
        refine countP_mono_left fun x _ hx => ?_
        rw [Bool.not_eq_true'] at hx ⊢
        rw [← Bool.not_eq_true, h.findEdge_iff]
        intro hedge
        rw [hpub.findEdge_iff.mpr (mem_append_left _ hedge)] at hx
        cases hx
      have hedges : (publishEdge g d dst).edges.length = g.edges.length + 1 := by
        simp [publishEdge]
      obtain ⟨hok, hmem, hlen⟩ := ih hpub (hlen₁ ▸ hdst) (hlen₁ ▸ hrest) (by omega)
      rw [publishHeldDeps, if_neg (by simp [hf])]
      refine ⟨hok, fun e => ?_, hlen.trans hlen₁⟩
      rw [hmem, exists_mem_cons_iff, ← or_assoc]
      simp only [publishEdge, mem_append, mem_singleton]

/-- What `add_held_deps` does. -/
structure AddedOk (g : LockChkGraph) (held : List LockChkHeld) (dst : LockChkDep)
    (r : LockChkResult × LockChkGraph) : Prop where
  cycle : r.1 = .cycle ↔ HasLockCycle (g.edgeSet ∪ heldEdges held dst)
  refused : r.1 ≠ .ok → TableOk r.2 ∧ ∃ v, r.2 = { g with visits := v }
  added : r.1 = .ok → GraphOk r.2 ∧ r.2.edgeSet = g.edgeSet ∪ heldEdges held dst ∧
    r.2.nodes.length = g.nodes.length

theorem addHeldDeps_spec (h : GraphOk g) (hheld : HeldOk g held) (dst : LockChkDep)
    (hdst : dst.node < g.nodes.length) :
    ∃ r, addHeldDeps g held dst = some r ∧ AddedOk g held dst r := by
  obtain ⟨c, v, hc, hok, hnone, hcount⟩ := checkHeldDeps_spec h.toTableOk hdst (heldDeps held) 0
  have hcycle := heldEdges_cycle_iff h held dst
  unfold addHeldDeps
  rw [hc]
  cases c with
  | none =>
    refine ⟨_, rfl, iff_of_true rfl (hcycle.mpr (hnone.mp rfl)), fun _ => ⟨hok, v, rfl⟩, nofun⟩
  | some missing =>
    have hno : ¬ HasLockCycle (g.edgeSet ∪ heldEdges held dst) := by
      rw [hcycle, ← hnone]
      nofun
    by_cases hroom : lockChkMaxEdges - g.edges.length < missing
    · refine ⟨(.edgeCapacity, { g with visits := v }), ?_, iff_of_false nofun hno,
        fun _ => ⟨hok, v, rfl⟩, nofun⟩
      simp only [Option.map_some, if_pos hroom]
    have hmissing := hcount missing rfl
    have hedges := h.edgeCount
    obtain ⟨hpub, hmem, hlen⟩ := publishHeldDeps_spec hok hdst (heldDeps held)
      (fun d hd => by
        obtain ⟨x, hx, hxo, rfl⟩ := mem_heldDeps.mp hd
        exact hheld x hx hxo)
      (by
        change g.edges.length + (heldDeps held).countP (fun d => !findEdge g d dst) ≤ _
        omega)
    have hset : (publishHeldDeps dst (heldDeps held) { g with visits := v }).edgeSet =
        g.edgeSet ∪ heldEdges held dst := by
      ext e
      rw [Set.mem_union, mem_heldEdges]
      exact hmem e
    refine ⟨(.ok, publishHeldDeps dst (heldDeps held) { g with visits := v }), ?_,
      iff_of_false nofun hno, fun hne => absurd rfl hne, fun _ => ⟨⟨hpub, ?_⟩, hset, hlen⟩⟩
    · simp only [Option.map_some, if_neg hroom]
    · rw [hset]
      exact hno

/-! ### Taking back -/

/-- Taking back a node that was just made, with its chain. -/
private theorem rollbackNode_append {n : LockChkNode} (hnodes : g'.nodes = g.nodes ++ [n])
    (hchain : g'.classHash = update g.classHash (lockChkClassHash n.cls n.subclass)
      (g.nodes.length :: g.classHash (lockChkClassHash n.cls n.subclass)))
    (hedges : g'.edges = g.edges) : rollbackNode g' = { g with visits := g'.visits } := by
  have hlast : g'.nodes.getLast? = some n := by rw [hnodes, getLast?_concat]
  have hlen : g'.nodes.length - 1 = g.nodes.length := by
    rw [hnodes, length_append, length_singleton, Nat.add_sub_cancel]
  unfold rollbackNode
  rw [hlast]
  dsimp only
  rw [hlen, hnodes, hchain, hedges, dropLast_concat, update_self,
    erase_cons_head, update_idem, update_eq_self]

private theorem rollback_addNode (v : LockChkVisits) :
    rollbackNode { addNode g cls subclass with visits := v } = { g with visits := v } :=
  rollbackNode_append rfl rfl rfl

private theorem rollback_addNode_context (v : LockChkVisits) :
    rollbackNode { setContextBits (addNode g cls subclass) g.nodes.length bits with visits := v } =
      { g with visits := v } := by
  refine rollbackNode_append (n := ⟨cls, subclass, bits, []⟩) ?_ rfl rfl
  simp only [setContextBits, addNode]
  induction g.nodes with
  | nil => rfl
  | cons x l ih => simpa using ih

private theorem setContextBits_self (v : LockChkVisits) :
    setContextBits { g with visits := v } b (contextBitsOf g b) = { g with visits := v } := by
  have hnodes : (setContextBits { g with visits := v } b (contextBitsOf g b)).nodes = g.nodes := by
    refine ext_getElem? fun i => ?_
    rw [setContextBits_getElem?]
    cases hn : g.nodes[i]? with
    | none => simp
    | some n =>
      by_cases hi : b = i
      · subst hi
        simp [contextBitsOf, hn]
      · simp [hi]
  simp only [setContextBits] at hnodes ⊢
  rw [hnodes]

/-- Writing back the context bits. -/
private theorem setContextBits_restore (v : LockChkVisits) :
    setContextBits { setContextBits g b bits with visits := v } b (contextBitsOf g b) =
      { g with visits := v } := by
  refine Eq.trans ?_ (setContextBits_self (b := b) v)
  simp only [setContextBits, LockChkGraph.mk.injEq, and_true]
  refine ext_getElem? fun i => ?_
  simp only [getElem?_modify]
  cases g.nodes[i]? with
  | none => rfl
  | some n => by_cases hi : b = i <;> simp [hi]

private theorem rollbackNodes_zero (h : g'.nodes.length = g.nodes.length) :
    rollbackNodes g' g.nodes.length = g' := by
  rw [rollbackNodes, h, Nat.sub_self]
  rfl

private theorem rollbackNodes_one (h : g'.nodes.length = g.nodes.length + 1) :
    rollbackNodes g' g.nodes.length = rollbackNode g' := by
  rw [rollbackNodes, h, Nat.add_sub_cancel_left]
  rfl

private theorem rollbackNodes_two (h : g'.nodes.length = g.nodes.length + 2) :
    rollbackNodes g' g.nodes.length = rollbackNode (rollbackNode g') := by
  rw [rollbackNodes, h, Nat.add_sub_cancel_left]
  rfl

private theorem rollbackAcq_some (hbase : findNode g (lockChkMapClass map) 0 = some base)
    (hroll : rollbackNodes g' g.nodes.length = { setContextBits g base bits with visits := v }) :
    rollbackAcq g map g' = { g with visits := v } := by
  unfold rollbackAcq
  rw [hroll, hbase]
  exact setContextBits_restore v

private theorem rollbackAcq_none (hbase : findNode g (lockChkMapClass map) 0 = none)
    (hroll : rollbackNodes g' g.nodes.length = { g with visits := v }) :
    rollbackAcq g map g' = { g with visits := v } := by
  unfold rollbackAcq
  rw [hroll, hbase]
  rfl

/-! ### Resolving -/

/-- The nodes that an acquisition has to make. -/
def missingNodes (g : LockChkGraph) (map : LockChkMap) (req : LockChkAcqReq) : ℕ :=
  (if findNode g (lockChkMapClass map) 0 = none then 1 else 0) +
    if req.subclass ≠ 0 ∧ findNode g (lockChkMapClass map) req.subclass = none then 1 else 0

/-- The context of the acquisition goes with those that are recorded for its class. -/
def ContextFits (g : LockChkGraph) (map : LockChkMap) (req : LockChkAcqReq) : Prop :=
  (recordCtx (((findNode g (lockChkMapClass map) 0).map (contextBitsOf g)).getD 0) req).1 = .ok

/-- The acquisition gets as far as its dependencies. -/
def Admitted (g : LockChkGraph) (map : LockChkMap) (req : LockChkAcqReq) : Prop :=
  req.subclass < lockChkMaxSubclasses ∧ ContextFits g map req ∧
    g.nodes.length + missingNodes g map req ≤ lockChkMaxNodes

/-- The node of an acquisition: the one of its class and subclass, or the next that is free. -/
def acqNode (g : LockChkGraph) (map : LockChkMap) (req : LockChkAcqReq) : ℕ :=
  (findNode g (lockChkMapClass map) req.subclass).getD
    (g.nodes.length +
      if req.subclass ≠ 0 ∧ findNode g (lockChkMapClass map) 0 = none then 1 else 0)

private theorem findNode_setContextBits :
    findNode (setContextBits g b bits) cls subclass = findNode g cls subclass := by
  refine congrArg (find? · _) (funext fun i => ?_)
  rw [setContextBits_getElem?]
  cases g.nodes[i]? with
  | none => rfl
  | some n =>
    split <;> rfl

private theorem findNode_addNode {c s : ℕ} (h : TableOk g) (hf : findNode g c s = none)
    (hlt : g.nodes.length < lockChkMaxNodes) (hne : s ≠ subclass) :
    findNode (addNode g c s) cls subclass = findNode g cls subclass := by
  refine Option.ext fun i => ?_
  rw [(h.addNode hf hlt).findNode_iff, h.findNode_iff]
  simp only [addNode, getElem?_append, getElem?_singleton]
  refine ⟨?_, ?_⟩
  · rintro ⟨n, hn, hc, hs⟩
    split at hn
    · exact ⟨n, hn, hc, hs⟩
    split at hn
    · obtain ⟨⟩ := hn
      exact absurd hs hne
    · cases hn
  · rintro ⟨n, hn, hc, hs⟩
    refine ⟨n, ?_, hc, hs⟩
    rw [if_pos (List.getElem?_eq_some_iff.mp hn).1]
    exact hn

private theorem recordCtx_ne_cycle : (recordCtx bits req).1 ≠ .cycle := by
  unfold recordCtx
  dsimp only
  split_ifs <;> nofun

private theorem contextBitsOf_addNode :
    contextBitsOf (addNode g cls subclass) g.nodes.length = 0 := by
  simp [contextBitsOf, addNode]

private theorem addNode_length : (addNode g cls subclass).nodes.length = g.nodes.length + 1 := by
  simp [addNode]

private theorem setContextBits_length : (setContextBits g b bits).nodes.length = g.nodes.length :=
  length_modify ..

/-- What `resolve_node` does. -/
structure ResolveOk (g : LockChkGraph) (map : LockChkMap) (req : LockChkAcqReq) (r : LockChkAcq) :
    Prop where
  admitted : r.result = .ok ↔ Admitted g map req
  noCycle : r.result ≠ .cycle
  mapKept : { r.map with baseNode := map.baseNode } = map
  undo : ∀ v, rollbackAcq g map { r.graph with visits := v } = { g with visits := v }
  visits : r.graph.visits = g.visits
  edges : r.graph.edges = g.edges
  ok : r.result = .ok → TableOk r.graph ∧ r.out = some (acqNode g map req) ∧
    acqNode g map req < r.graph.nodes.length ∧ g.nodes.length ≤ r.graph.nodes.length

/-- The graph `g₁` is `g` with the node of the class of the map, found or made. -/
private structure BaseOk (g : LockChkGraph) (map : LockChkMap) (g₁ : LockChkGraph) (base : ℕ) :
    Prop where
  table : TableOk g₁
  length : g₁.nodes.length =
    g.nodes.length + if findNode g (lockChkMapClass map) 0 = none then 1 else 0
  found : findNode g₁ (lockChkMapClass map) 0 = some base
  node : (findNode g (lockChkMapClass map) 0).getD g.nodes.length = base
  bits : contextBitsOf g₁ base =
    ((findNode g (lockChkMapClass map) 0).map (contextBitsOf g)).getD 0
  find : ∀ sub, sub ≠ 0 →
    findNode g₁ (lockChkMapClass map) sub = findNode g (lockChkMapClass map) sub
  undo : ∀ bits v, rollbackAcq g map { setContextBits g₁ base bits with visits := v } =
    { g with visits := v }
  undoSub : ∀ bits sub v, rollbackAcq g map
    { addNode (setContextBits g₁ base bits) (lockChkMapClass map) sub with visits := v } =
    { g with visits := v }
  visits : g₁.visits = g.visits
  edges : g₁.edges = g.edges

private theorem findOrAddNode_base (h : TableOk g) {x : LockChkGraph × ℕ}
    (hx : findOrAddNode g (lockChkMapClass map) 0 = some x) : BaseOk g map x.1 x.2 := by
  unfold findOrAddNode at hx
  cases hbase : findNode g (lockChkMapClass map) 0 with
  | some base =>
    rw [hbase] at hx
    obtain ⟨⟩ := hx
    refine ⟨h, by simp [hbase], hbase, by rw [hbase]; rfl, by rw [hbase]; rfl, fun _ _ => rfl,
      fun bits v => ?_, fun bits sub v => ?_, rfl, rfl⟩
    · exact rollbackAcq_some hbase (rollbackNodes_zero setContextBits_length)
    · refine rollbackAcq_some hbase ((rollbackNodes_one ?_).trans (rollback_addNode v))
      exact addNode_length.trans (congrArg (· + 1) setContextBits_length)
  | none =>
    rw [hbase] at hx
    obtain ⟨hfull, ⟨⟩⟩ := Option.ite_none_left_eq_some.mp hx
    have hlt : g.nodes.length < lockChkMaxNodes := Nat.lt_of_le_of_ne h.nodeCount hfull
    have h₁ := h.addNode hbase hlt
    refine ⟨h₁, by simp [hbase, addNode_length], h₁.findNode_iff.mpr ?_, by rw [hbase]; rfl, ?_,
      fun sub hs => findNode_addNode h hbase hlt (Ne.symm hs), fun bits v => ?_,
      fun bits sub v => ?_, rfl, rfl⟩
    · exact ⟨⟨lockChkMapClass map, 0, 0, []⟩, by simp [addNode], rfl, rfl⟩
    · rw [hbase]
      exact contextBitsOf_addNode
    · refine rollbackAcq_none hbase ((rollbackNodes_one ?_).trans (rollback_addNode_context v))
      exact setContextBits_length.trans addNode_length
    · refine rollbackAcq_none hbase ((rollbackNodes_two ?_).trans
        ((congrArg rollbackNode (rollback_addNode v)).trans (rollback_addNode_context v)))
      exact addNode_length.trans (congrArg (· + 1) (setContextBits_length.trans addNode_length))

/-- The second half of `resolve_node`. -/
private theorem resolve_sub {g₁ : LockChkGraph} (hb : BaseOk g map g₁ base)
    (hsub : req.subclass < lockChkMaxSubclasses) (hctx : ContextFits g map req) (bits : BitVec 8) :
    let g₂ := setContextBits g₁ base bits
    let map₁ := { map with baseNode := some base }
    ResolveOk g map req
      (if req.subclass = 0 then ⟨g₂, map₁, .ok, some base⟩
      else
        match findOrAddNode g₂ (lockChkMapClass map) req.subclass with
        | none => ⟨g₂, map₁, .nodeCapacity, none⟩
        | some (g₃, node) => ⟨g₃, map₁, .ok, some node⟩) := by
  dsimp only
  obtain ⟨g₂, hg₂⟩ : ∃ g₂, g₂ = setContextBits g₁ base bits := ⟨_, rfl⟩
  have h₂ : TableOk g₂ := hg₂ ▸ hb.table.setContextBits
  have hlen : g₂.nodes.length = _ := hg₂ ▸ setContextBits_length.trans hb.length
  have hundo := hb.undo bits
  have hundo' := hb.undoSub bits req.subclass
  have hvisits : g₂.visits = g.visits := hg₂ ▸ hb.visits
  have hedges : g₂.edges = g.edges := hg₂ ▸ hb.edges
  have hfind : ∀ sub, findNode g₂ (lockChkMapClass map) sub = findNode g₁
    (lockChkMapClass map) sub := fun sub => hg₂ ▸ findNode_setContextBits
  rw [← hg₂] at hundo hundo' ⊢
  have hcount := h₂.nodeCount
  have hadm : Admitted g map req ↔ g₂.nodes.length + (if req.subclass ≠ 0 ∧
      findNode g (lockChkMapClass map) req.subclass = none then 1 else 0) ≤ lockChkMaxNodes := by
    rw [hlen, Nat.add_assoc]
    exact ⟨fun ha => ha.2.2, fun hroom => ⟨hsub, hctx, hroom⟩⟩
  by_cases hzero : req.subclass = 0
  · have hacq : acqNode g map req = base := by simp [acqNode, hzero, hb.node]
    rw [if_pos hzero]
    refine ⟨iff_of_true rfl (hadm.mpr ?_), nofun, rfl, hundo, hvisits, hedges, fun _ =>
      ⟨h₂, by rw [hacq], ?_, by dsimp only; omega⟩⟩
    · rwa [if_neg fun hc => hc.1 hzero]
    · rw [hacq]
      exact h₂.findNode_lt ((hfind 0).trans hb.found)
  · rw [if_neg hzero]
    have hf := (hfind _).trans (hb.find _ hzero)
    unfold findOrAddNode
    cases hg : findNode g (lockChkMapClass map) req.subclass with
    | some i =>
      rw [hg] at hf
      simp only [hf]
      have hacq : acqNode g map req = i := by rw [acqNode, hg, Option.getD_some]
      refine ⟨iff_of_true rfl (hadm.mpr ?_), nofun, rfl, hundo, hvisits, hedges, fun _ =>
        ⟨h₂, by rw [hacq], ?_, by dsimp only; omega⟩⟩
      · rwa [if_neg fun hc => by rw [hg] at hc; exact absurd hc.2 nofun]
      · rw [hacq]
        exact h₂.findNode_lt hf
    | none =>
      rw [hg] at hf
      simp only [hf]
      rw [if_pos ⟨hzero, hg⟩] at hadm
      by_cases hfull : g₂.nodes.length = lockChkMaxNodes
      · rw [if_pos hfull]
        refine ⟨iff_of_false nofun fun ha => ?_, nofun, rfl, hundo, hvisits, hedges, nofun⟩
        have := hadm.mp ha
        omega
      rw [if_neg hfull]
      have hacq : acqNode g map req = g₂.nodes.length := by
        rw [acqNode, hg, Option.getD_none, hlen]
        simp [hzero]
      refine ⟨iff_of_true rfl (hadm.mpr (by omega)), nofun, rfl, hundo', hvisits, hedges,
        fun _ => ⟨h₂.addNode hf (by omega), by rw [hacq], ?_, ?_⟩⟩
      · rw [hacq]
        rw [addNode_length]
        omega
      · rw [addNode_length]
        omega

theorem resolveNode_spec (h : TableOk g) (map : LockChkMap) (req : LockChkAcqReq) :
    ResolveOk g map req (resolveNode g map req) := by
  have hsame : ∀ v, rollbackAcq g map { g with visits := v } = { g with visits := v } := by
    intro v
    unfold rollbackAcq
    rw [rollbackNodes_zero rfl]
    cases findNode g (lockChkMapClass map) 0 with
    | none => rfl
    | some base => exact setContextBits_self v
  unfold resolveNode
  by_cases hsub : lockChkMaxSubclasses ≤ req.subclass
  · rw [if_pos hsub]
    exact ⟨iff_of_false nofun fun ha => absurd ha.1 (by omega), nofun, rfl, hsame, rfl, rfl, nofun⟩
  rw [if_neg hsub]
  cases hbase : findOrAddNode g (lockChkMapClass map) 0 with
  | none =>
    refine ⟨iff_of_false nofun fun ha => ?_, nofun, rfl, hsame, rfl, rfl, nofun⟩
    have hroom := ha.2.2
    unfold findOrAddNode at hbase
    split at hbase
    case h_1 => cases hbase
    case h_2 hnone =>
      have hfull : g.nodes.length = lockChkMaxNodes := by simpa using hbase
      rw [missingNodes, hnone, if_pos rfl] at hroom
      omega
  | some x =>
    have hb := findOrAddNode_base h hbase
    have hfits : ContextFits g map req ↔ (recordCtx (contextBitsOf x.1 x.2) req).1 = .ok := by
      rw [ContextFits, hb.bits]
    dsimp only
    by_cases hctx : (recordCtx (contextBitsOf x.1 x.2) req).1 = .ok
    · rw [if_neg (not_not.mpr hctx)]
      exact resolve_sub hb (by omega) (hfits.mpr hctx) _
    rw [if_pos hctx]
    refine ⟨iff_of_false hctx fun ha => hctx (hfits.mp ha.2.1), ?_, rfl, hb.undo _, hb.visits,
      hb.edges, fun hok => absurd hok hctx⟩
    exact recordCtx_ne_cycle

/-! ### Acquisitions -/

/-- What `lock_chk_graph_prepare_acq` guarantees. -/
structure AcqSound (g : LockChkGraph) (map : LockChkMap) (held : List LockChkHeld)
    (req : LockChkAcqReq) (r : LockChkAcq) : Prop where
  /-- A blocking acquisition that gets as far as its dependencies is refused for a cycle exactly
  when its edges would close one. -/
  cycle : r.result = .cycle ↔ Admitted g map req ∧ req.blocking = true ∧
    HasLockCycle (g.edgeSet ∪ heldEdges held ⟨acqNode g map req, req.mode⟩)
  /-- What is refused changes nothing. -/
  refused : r.result ≠ .ok → r.graph.nodes = g.nodes ∧ r.graph.classHash = g.classHash ∧
    r.graph.edges = g.edges ∧ r.map = map ∧ r.out = none
  /-- A blocking acquisition that is accepted adds its edges, and no other one does. -/
  accepted : r.result = .ok → r.out = some (acqNode g map req) ∧
    r.graph.edgeSet = g.edgeSet ∪
      if req.blocking then heldEdges held ⟨acqNode g map req, req.mode⟩ else ∅

/-- A graph that differs in its marks only. -/
private theorem GraphOk.setVisits (h : GraphOk g) (hg : v.generation < 2 ^ 32)
    (hv : ∀ x, v.visitGeneration x ≤ v.generation) : GraphOk { g with visits := v } :=
  ⟨h.toTableOk.setVisits hg hv, h.acyclic⟩

/-- Every acquisition returns, keeps the invariant and is sound. -/
theorem prepareAcq_spec (h : GraphOk g) (hheld : HeldOk g held) (req : LockChkAcqReq)
    (map : LockChkMap) :
    ∃ r, lockChkGraphPrepareAcq g held req map = some r ∧ GraphOk r.graph ∧
      AcqSound g map held req r := by
  have hres := resolveNode_spec h.toTableOk map req
  obtain ⟨r, hr⟩ : ∃ r, r = resolveNode g map req := ⟨_, rfl⟩
  unfold lockChkGraphPrepareAcq
  rw [← hr] at hres ⊢
  dsimp only
  by_cases hok : r.result = .ok
  · obtain ⟨htable, hout, hlt, hle⟩ := hres.ok hok
    have hset : r.graph.edgeSet = g.edgeSet := by
      unfold LockChkGraph.edgeSet
      rw [hres.edges]
    have hgraph : GraphOk r.graph := ⟨htable, hset ▸ h.acyclic⟩
    have hadm := hres.admitted.mp hok
    rw [hok, hout]
    dsimp only
    by_cases hblock : req.blocking = true
    · have hheld' : HeldOk r.graph held := fun x hx hxo => Nat.lt_of_lt_of_le (hheld x hx hxo) hle
      obtain ⟨d, hd, hadd⟩ := addHeldDeps_spec hgraph hheld' ⟨acqNode g map req, req.mode⟩ hlt
      rw [if_pos hblock, hd, Option.map_some]
      have hcycle : d.1 = .cycle ↔ Admitted g map req ∧ req.blocking = true ∧
          HasLockCycle (g.edgeSet ∪ heldEdges held ⟨acqNode g map req, req.mode⟩) := by
        refine ⟨fun hc => ⟨hadm, hblock, hset ▸ hadd.cycle.mp hc⟩, fun hc => ?_⟩
        exact hadd.cycle.mpr (hset.symm ▸ hc.2.2)
      by_cases hd1 : d.1 = .ok
      · obtain ⟨hgok, hedges, -⟩ := hadd.added hd1
        rw [if_pos hd1]
        refine ⟨_, rfl, hgok, ?_, fun hne => absurd rfl hne, fun _ => ⟨rfl, ?_⟩⟩
        · rw [← hcycle, hd1]
        · rw [hedges, hset, if_pos hblock]
      · obtain ⟨htab, v, hv⟩ := hadd.refused hd1
        rw [if_neg hd1, hv, hres.undo v, hres.mapKept]
        rw [hv] at htab
        exact ⟨_, rfl, h.setVisits htab.generation htab.visits, hcycle,
          fun _ => ⟨rfl, rfl, rfl, rfl, rfl⟩, fun hc => absurd hc hd1⟩
    · rw [if_neg hblock]
      refine ⟨r, rfl, hgraph, ?_, fun hne => absurd hok hne, fun _ => ⟨hout, ?_⟩⟩
      · rw [hok]
        exact iff_of_false nofun fun hc => hblock hc.2.1
      · rw [hset, if_neg hblock, Set.union_empty]
  · have hundo : rollbackAcq g map r.graph = g := by
      have := hres.undo g.visits
      rw [← hres.visits] at this
      exact this.trans (by rw [hres.visits])
    have hnot : ¬ Admitted g map req := fun ha => hok (hres.admitted.mpr ha)
    split
    case h_1 hres' _ => exact absurd hres' hok
    case h_2 =>
      rw [hundo, hres.mapKept]
      exact ⟨_, rfl, h, iff_of_false hres.noCycle fun hc => hnot hc.1,
        fun _ => ⟨rfl, rfl, rfl, rfl, rfl⟩, fun hc => absurd hc hok⟩

/-- Adding a dependency keeps the invariant. -/
theorem addDep_ok {r : LockChkResult × LockChkGraph} (h : GraphOk g)
    (hsrc : src.node < g.nodes.length) (hdst : dst.node < g.nodes.length)
    (hr : lockChkGraphAddDep g src dst = some r) : GraphOk r.2 := by
  unfold lockChkGraphAddDep at hr
  cases hf : findEdge g src dst with
  | true =>
    rw [if_pos hf] at hr
    obtain ⟨⟩ := hr
    exact h
  | false =>
    obtain ⟨p, v, hpath, hok, hp⟩ := graphPath_spec h.toTableOk hdst src
    rw [if_neg (by simp [hf]), hpath, Option.map_some] at hr
    obtain ⟨⟩ := hr
    have hgok : GraphOk { g with visits := v } := ⟨hok, h.acyclic⟩
    cases p with
    | true => exact hgok
    | false =>
      by_cases hfull : g.edges.length = lockChkMaxEdges
      · simp only [hfull, if_true]
        exact hgok
      simp only [hfull, if_false]
      refine ⟨hok.publishEdge hsrc hdst (Nat.lt_of_le_of_ne h.edgeCount hfull), ?_⟩
      have hset : (publishEdge { g with visits := v } src dst).edgeSet =
          g.edgeSet ∪ heldEdges [⟨src.node, src.mode, true⟩] dst := by
        ext e
        refine mem_append.trans (or_congr Iff.rfl (mem_singleton.trans ⟨?_, ?_⟩))
        · exact fun he => ⟨_, mem_singleton_self _, rfl, he⟩
        · rintro ⟨x, hx, -, he⟩
          obtain rfl := mem_singleton.mp hx
          exact he
      change ¬ HasLockCycle (publishEdge { g with visits := v } src dst).edgeSet
      rw [hset, heldEdges_cycle_iff h]
      rintro ⟨d, hd, -, hreach⟩
      obtain ⟨x, hx, -, rfl⟩ := mem_heldDeps.mp hd
      obtain rfl := mem_singleton.mp hx
      exact Bool.false_ne_true (hp.mpr hreach)

/-! ### Runs -/

variable {L : Type} [DecidableEq L] {s s' : LockChkSys L} {maps : L → LockChkMap}

theorem lockChkGraphInit_ok : GraphOk lockChkGraphInit := by
  refine ⟨⟨?_, ?_, ?_, nofun, Nat.zero_le _, Nat.zero_le _, by decide, fun _ => le_refl 0⟩, ?_⟩
  · intro b i
    simp [lockChkGraphInit]
  · intro i j n m hn
    simp [lockChkGraphInit] at hn
  · intro i n hn
    simp [lockChkGraphInit] at hn
  · rintro ⟨e, he, -⟩
    cases he

/-- Every step keeps the invariant. -/
theorem LockChkStep.graphOk (hs : LockChkStep s s') (h : GraphOk s.graph) : GraphOk s'.graph := by
  cases hs with
  | acquire held req l r hheld hr =>
    obtain ⟨r', hr', hok, -⟩ := prepareAcq_spec h hheld req (s.maps l)
    obtain rfl := Option.some.inj (hr.symm.trans hr')
    exact hok
  | addDep src dst r hsrc hdst hr => exact addDep_ok h hsrc hdst hr

/-- A whole run keeps the invariant. -/
theorem lockChkRun_ok (h : ReflTransGen LockChkStep ⟨lockChkGraphInit, maps⟩ s) :
    GraphOk s.graph := by
  induction h with
  | refl => exact lockChkGraphInit_ok
  | tail _ hstep ih => exact hstep.graphOk ih

/-- What holds in every reachable state. -/
structure LockChkSound (s : LockChkSys L) : Prop where
  /-- The published graph has no cycle whose edges conflict in mode at every node. -/
  acyclic : ¬ HasLockCycle s.graph.edgeSet
  /-- A class and a subclass have one node. -/
  unique : ∀ (i j : ℕ) (n m : LockChkNode), s.graph.nodes[i]? = some n →
    s.graph.nodes[j]? = some m → n.cls = m.cls → n.subclass = m.subclass → i = j
  /-- The search ends within its stack, and its answer depends on the edges only. -/
  search : ∀ start target : LockChkDep, start.node < s.graph.nodes.length →
    ∃ r v, graphPath s.graph start target = some (r, { s.graph with visits := v }) ∧
      (r = true ↔ Reaches s.graph.edgeSet start target)
  /-- An acquisition returns, and is refused as it should be. -/
  acquire : ∀ held req l, HeldOk s.graph held →
    ∃ r, lockChkGraphPrepareAcq s.graph held req (s.maps l) = some r ∧
      AcqSound s.graph (s.maps l) held req r

omit [DecidableEq L] in
theorem GraphOk.sound (h : GraphOk s.graph) : LockChkSound s := by
  refine ⟨h.acyclic, h.unique, ?_, ?_⟩
  · intro start target hstart
    obtain ⟨r, v, hr, -, hiff⟩ := graphPath_spec h.toTableOk hstart target
    exact ⟨r, v, hr, hiff⟩
  · intro held req l hheld
    obtain ⟨r, hr, -, hsound⟩ := prepareAcq_spec h hheld req (s.maps l)
    exact ⟨r, hr, hsound⟩

/-- In every run, whatever is held and acquired, the validator reports exactly the cycles. -/
theorem lockChkRun_sound (h : ReflTransGen LockChkStep ⟨lockChkGraphInit, maps⟩ s) :
    LockChkSound s :=
  (lockChkRun_ok h).sound

/-- Acquisitions one after the other. -/
def lockChkTrace (s : LockChkSys L) :
    List (List LockChkHeld × LockChkAcqReq × L) → Option (LockChkSys L)
  | [] => some s
  | (held, req, l) :: rest =>
    if held.all fun h => !h.order || h.node < s.graph.nodes.length then
      (lockChkGraphPrepareAcq s.graph held req (s.maps l)).bind fun r =>
        lockChkTrace ⟨r.graph, Function.update s.maps l r.map⟩ rest
    else none

private theorem lockChkTrace_run {acts : List (List LockChkHeld × LockChkAcqReq × L)}
    (h : lockChkTrace s acts = some s') : ReflTransGen LockChkStep s s' := by
  induction acts generalizing s with
  | nil =>
    obtain ⟨⟩ := h
    exact .refl
  | cons act acts ih =>
    obtain ⟨held, req, l⟩ := act
    obtain ⟨hheld, h⟩ := Option.ite_none_right_eq_some.mp h
    obtain ⟨r, hr, hrest⟩ := Option.bind_eq_some_iff.mp h
    refine (ih hrest).head (.acquire held req l r ?_ hr)
    intro x hx hxo
    have := all_eq_true.mp hheld x hx
    simpa [hxo] using this

/-- Two classes, one for each lock. -/
private def twoMaps (l : Bool) : LockChkMap := ⟨some (if l then 0x1000 else 0x2000), 0, none⟩

/-- A blocking acquisition of a spin lock at dispatch level, or with interrupts masked. -/
private def spinReq (high : Bool) : LockChkAcqReq where
  type := .spin
  mode := .exclusive
  prevIrql := 0
  subclass := 0
  opFlags := if high then 0xa else 0x9
  irqsEnabled := true
  inIrq := false
  inInterrupt := false
  enforced := by cases high <;> decide

/-- One order is recorded, and the other one is refused. -/
theorem lockChkRun_sound_reversed : ∃ s : LockChkSys Bool,
    ReflTransGen LockChkStep ⟨lockChkGraphInit, twoMaps⟩ s ∧
      s.graph.edges = [⟨0, 1, .exclusive, .exclusive⟩] ∧
      (lockChkGraphPrepareAcq s.graph [⟨1, .exclusive, true⟩] (spinReq true) (s.maps true)).map
        (·.result) = some .cycle ∧ LockChkSound s := by
  have hobs : (lockChkTrace ⟨lockChkGraphInit, twoMaps⟩
      [([], spinReq true, true), ([⟨0, .exclusive, true⟩], spinReq true, false)]).map
        (fun s => (s.graph.edges, (lockChkGraphPrepareAcq s.graph [⟨1, .exclusive, true⟩]
          (spinReq true) (s.maps true)).map (·.result))) =
      some ([⟨0, 1, .exclusive, .exclusive⟩], some .cycle) := by decide +kernel
  obtain ⟨s, hs, hobs⟩ := Option.map_eq_some_iff.mp hobs
  obtain ⟨hedges, hcycle⟩ := Prod.mk.inj hobs
  exact ⟨s, lockChkTrace_run hs, hedges, hcycle, lockChkRun_sound (lockChkTrace_run hs)⟩

/-- An acquisition whose edge would close a cycle, in a context that does not go with the class: the
context is checked first, and the cycle is not reported. -/
theorem lockChkRun_context_first : ∃ (s : LockChkSys Bool) (r : LockChkAcq),
    ReflTransGen LockChkStep ⟨lockChkGraphInit, twoMaps⟩ s ∧
      HeldOk s.graph [⟨1, .exclusive, true⟩] ∧
      lockChkGraphPrepareAcq s.graph [⟨1, .exclusive, true⟩] (spinReq false) (s.maps true) =
        some r ∧
      (spinReq false).blocking = true ∧
      HasLockCycle (s.graph.edgeSet ∪ heldEdges [⟨1, .exclusive, true⟩]
        ⟨acqNode s.graph (s.maps true) (spinReq false), (spinReq false).mode⟩) ∧
      r.result = .badContext := by
  have hobs : (lockChkTrace ⟨lockChkGraphInit, twoMaps⟩
      [([], spinReq true, true), ([⟨0, .exclusive, true⟩], spinReq true, false)]).map
        (fun s => (s.graph.edges, s.graph.nodes.length,
          acqNode s.graph (s.maps true) (spinReq false),
          (lockChkGraphPrepareAcq s.graph [⟨1, .exclusive, true⟩] (spinReq false)
            (s.maps true)).map (·.result))) =
      some ([⟨0, 1, .exclusive, .exclusive⟩], 2, 0, some .badContext) := by decide +kernel
  obtain ⟨s, hs, hobs⟩ := Option.map_eq_some_iff.mp hobs
  simp only [Prod.mk.injEq] at hobs
  obtain ⟨hedges, hlen, hnode, hres⟩ := hobs
  obtain ⟨r, hr, hres⟩ := Option.map_eq_some_iff.mp hres
  refine ⟨s, r, lockChkTrace_run hs, ?_, hr, by decide, ?_, hres⟩
  · intro x hx _
    rw [mem_singleton.mp hx, hlen]
    decide
  rw [hnode]
  have hold : (⟨0, 1, .exclusive, .exclusive⟩ : LockChkEdge) ∈ s.graph.edgeSet := by
    change _ ∈ s.graph.edges
    rw [hedges]
    exact mem_singleton_self _
  have hnew : (⟨1, 0, .exclusive, .exclusive⟩ : LockChkEdge) ∈
      heldEdges [⟨1, .exclusive, true⟩] ⟨0, (spinReq false).mode⟩ :=
    ⟨_, mem_singleton_self _, rfl, rfl⟩
  refine ⟨_, .inl hold, .tail (.single ⟨.inr hnew, rfl, rfl⟩) ⟨.inl hold, rfl, rfl⟩⟩

end Charmos.LockChk

import Charmos.Lib.EdgeCycle
import Charmos.Sync.LockChk

/-!
# The invariant of the lock-order validator

Edges are joined at a node when the mode in which the first one arrives conflicts with the mode in
which the second one leaves (`Joins`). The graph has no cycle of joined edges, each class and
subclass has one node, which its chain finds, and each node has the edges that leave it (`TableOk`).
-/

namespace Charmos.LockChk

open Function List Option Relation

/-- A cycle can go on from one edge with the other. -/
def Joins (e f : LockChkEdge) : Prop :=
  e.toNode = f.fromNode ∧ lockChkModesConflict e.toMode f.fromMode = true

/-- There is a cycle whose edges conflict in mode at every node. -/
def HasLockCycle (E : Set LockChkEdge) : Prop :=
  HasEdgeCycle Joins E

/-- The edges of the graph. -/
def LockChkGraph.edgeSet (g : LockChkGraph) : Set LockChkEdge :=
  { e | e ∈ g.edges }

/-- The tables of the graph fit together. -/
structure TableOk (g : LockChkGraph) : Prop where
  chains : ∀ b i, i ∈ g.classHash b ↔
    ∃ n, g.nodes[i]? = some n ∧ lockChkClassHash n.cls n.subclass = b
  unique : ∀ (i j : ℕ) (n m : LockChkNode), g.nodes[i]? = some n → g.nodes[j]? = some m →
    n.cls = m.cls → n.subclass = m.subclass → i = j
  out : ∀ (i : ℕ) (n : LockChkNode), g.nodes[i]? = some n →
    n.outEdges = g.edges.filter fun e => e.fromNode == i
  inside : ∀ e ∈ g.edges, e.fromNode < g.nodes.length ∧ e.toNode < g.nodes.length
  nodeCount : g.nodes.length ≤ lockChkMaxNodes
  edgeCount : g.edges.length ≤ lockChkMaxEdges
  generation : g.visits.generation < 2 ^ 32
  visits : ∀ x, g.visits.visitGeneration x ≤ g.visits.generation

/-- The invariant. -/
structure GraphOk (g : LockChkGraph) : Prop extends TableOk g where
  acyclic : ¬ HasLockCycle g.edgeSet

variable {g g' : LockChkGraph} {map : LockChkMap} {req : LockChkAcqReq} {cls subclass i b : ℕ}
  {bits : BitVec 8} {src dst start target : LockChkDep} {held : List LockChkHeld} {d : LockChkDep}
  {y : ℕ}

/-! ### Nodes -/

/-- `find_node` finds the node of a class and a subclass. -/
theorem TableOk.findNode_iff (h : TableOk g) : findNode g cls subclass = some i ↔
    ∃ n, g.nodes[i]? = some n ∧ n.cls = cls ∧ n.subclass = subclass := by
  have hfor : ∀ j : ℕ, (g.nodes[j]?).any (·.isFor cls subclass) = true ↔
      ∃ n, g.nodes[j]? = some n ∧ n.cls = cls ∧ n.subclass = subclass := by
    intro j
    cases g.nodes[j]? <;> simp [LockChkNode.isFor]
  have hfound : ∀ j, findNode g cls subclass = some j →
      (g.nodes[j]?).any (·.isFor cls subclass) = true := by
    intro j hj
    have := find?_some hj
    exact this
  refine ⟨fun hf => (hfor i).mp (hfound i hf), ?_⟩
  rintro ⟨n, hn, hc, hs⟩
  have hmem : i ∈ g.classHash (lockChkClassHash cls subclass) :=
    (h.chains _ i).mpr ⟨n, hn, by rw [hc, hs]⟩
  have hsome : (findNode g cls subclass).isSome :=
    find?_isSome.mpr ⟨i, hmem, (hfor i).mpr ⟨n, hn, hc, hs⟩⟩
  obtain ⟨j, hj⟩ := isSome_iff_exists.mp hsome
  obtain ⟨m, hm, hmc, hms⟩ := (hfor j).mp (hfound j hj)
  rw [hj, h.unique j i m n hm hn (hmc.trans hc.symm) (hms.trans hs.symm)]

theorem TableOk.findNode_none (h : TableOk g) : findNode g cls subclass = none ↔
    ∀ (j : ℕ) (n : LockChkNode), g.nodes[j]? = some n → n.cls = cls → n.subclass ≠ subclass := by
  refine ⟨?_, ?_⟩
  · intro hf j n hn hc hs
    have := h.findNode_iff.mpr ⟨n, hn, hc, hs⟩
    rw [hf] at this
    cases this
  · intro hall
    cases hf : findNode g cls subclass with
    | none => rfl
    | some j =>
      obtain ⟨n, hn, hc, hs⟩ := h.findNode_iff.mp hf
      exact absurd hs (hall j n hn hc)

theorem TableOk.findNode_lt (h : TableOk g) (hf : findNode g cls subclass = some i) :
    i < g.nodes.length := by
  obtain ⟨n, hn, -⟩ := h.findNode_iff.mp hf
  exact (List.getElem?_eq_some_iff.mp hn).1

theorem setContextBits_getElem? : (setContextBits g b bits).nodes[i]? =
    (g.nodes[i]?).map fun n => if b = i then { n with contextBits := bits } else n := by
  simp only [setContextBits, getElem?_modify]
  rfl

/-- A node is changed that keeps its class and subclass, and the edges change with it. -/
theorem TableOk.modify {f : LockChkNode → LockChkNode} {edges : List LockChkEdge} (h : TableOk g)
    (hf : ∀ n, (f n).cls = n.cls ∧ (f n).subclass = n.subclass)
    (hout : ∀ (i : ℕ) (n : LockChkNode), g.nodes[i]? = some n →
      (if b = i then f n else n).outEdges = edges.filter fun e => e.fromNode == i)
    (hinside : ∀ e ∈ edges, e.fromNode < g.nodes.length ∧ e.toNode < g.nodes.length)
    (hcount : edges.length ≤ lockChkMaxEdges) :
    TableOk { g with edges := edges, nodes := g.nodes.modify b f } := by
  have hnode : ∀ (i : ℕ) (n : LockChkNode), (g.nodes.modify b f)[i]? = some n ↔
      ∃ m, g.nodes[i]? = some m ∧ (if b = i then f m else m) = n := by
    intro i n
    rw [getElem?_modify]
    exact map_eq_some_iff
  have hsame : ∀ (i : ℕ) (m : LockChkNode), (if b = i then f m else m).cls = m.cls ∧
      (if b = i then f m else m).subclass = m.subclass := by
    intro i m
    split
    · exact hf m
    · exact ⟨rfl, rfl⟩
  have hlen : (g.nodes.modify b f).length = g.nodes.length := length_modify ..
  refine ⟨?_, ?_, ?_, hlen.symm ▸ hinside, hlen.symm ▸ h.nodeCount, hcount, h.generation, h.visits⟩
  · intro x i
    refine (h.chains x i).trans ⟨?_, ?_⟩
    · rintro ⟨m, hm, hx⟩
      exact ⟨_, (hnode i _).mpr ⟨m, hm, rfl⟩, by rw [(hsame i m).1, (hsame i m).2, hx]⟩
    · rintro ⟨n, hn, hx⟩
      obtain ⟨m, hm, rfl⟩ := (hnode i n).mp hn
      exact ⟨m, hm, by rw [← hx, (hsame i m).1, (hsame i m).2]⟩
  · intro i j n n' hn hn' hc hs
    obtain ⟨m, hm, rfl⟩ := (hnode i n).mp hn
    obtain ⟨m', hm', rfl⟩ := (hnode j n').mp hn'
    rw [(hsame i m).1, (hsame j m').1] at hc
    rw [(hsame i m).2, (hsame j m').2] at hs
    exact h.unique i j m m' hm hm' hc hs
  · intro i n hn
    obtain ⟨m, hm, rfl⟩ := (hnode i n).mp hn
    exact hout i m hm

/-- The context bits are in no other table. -/
theorem TableOk.setContextBits (h : TableOk g) : TableOk (setContextBits g b bits) := by
  refine h.modify (fun _ => ⟨rfl, rfl⟩) (fun i n hn => ?_) h.inside h.edgeCount
  rw [← h.out i n hn]
  split <;> rfl

/-- A node for a class and a subclass that have none. -/
theorem TableOk.addNode (h : TableOk g) (hf : findNode g cls subclass = none)
    (hlt : g.nodes.length < lockChkMaxNodes) : TableOk (addNode g cls subclass) := by
  have hnew : ∀ (i : ℕ) (n : LockChkNode),
      (g.nodes ++ [(⟨cls, subclass, 0, []⟩ : LockChkNode)])[i]? = some n ↔
      g.nodes[i]? = some n ∨ i = g.nodes.length ∧ n = ⟨cls, subclass, 0, []⟩ := by
    intro i n
    by_cases hi : i < g.nodes.length
    · rw [getElem?_append_left hi]
      refine ⟨.inl, ?_⟩
      rintro (hn | ⟨he, -⟩)
      · exact hn
      · omega
    · rw [getElem?_append_right (by omega), getElem?_eq_none (l := g.nodes) (by omega)]
      by_cases he : i = g.nodes.length
      · subst he
        simp [eq_comm]
      · rw [getElem?_eq_none (by simp; omega)]
        simp [he]
  have hnone := h.findNode_none.mp hf
  refine ⟨?_, ?_, ?_, ?_, ?_, h.edgeCount, h.generation, h.visits⟩
  · intro b i
    simp only [LockChk.addNode, hnew]
    by_cases hb : b = lockChkClassHash cls subclass
    · subst hb
      rw [update_self, mem_cons, h.chains]
      refine ⟨?_, ?_⟩
      · rintro (rfl | ⟨n, hn, hx⟩)
        · exact ⟨_, .inr ⟨rfl, rfl⟩, rfl⟩
        · exact ⟨n, .inl hn, hx⟩
      · rintro ⟨n, hn | ⟨hi, -⟩, hx⟩
        · exact .inr ⟨n, hn, hx⟩
        · exact .inl hi
    · rw [update_of_ne hb, h.chains]
      refine ⟨fun ⟨n, hn, hx⟩ => ⟨n, .inl hn, hx⟩, ?_⟩
      rintro ⟨n, hn | ⟨-, rfl⟩, hx⟩
      · exact ⟨n, hn, hx⟩
      · exact absurd hx.symm hb
  · intro i j n m hn hm hc hs
    rcases (hnew i n).mp hn with hn | ⟨hi, rfl⟩ <;> rcases (hnew j m).mp hm with hm | ⟨hj, rfl⟩
    · exact h.unique i j n m hn hm hc hs
    · exact absurd hs (hnone i n hn hc)
    · exact absurd hs.symm (hnone j m hm hc.symm)
    · rw [hi, hj]
  · intro i n hn
    rcases (hnew i n).mp hn with hn | ⟨rfl, rfl⟩
    · exact h.out i n hn
    refine (filter_eq_nil_iff.mpr fun e he => ?_).symm
    have := (h.inside e he).1
    simp
    omega
  · intro e he
    obtain ⟨h1, h2⟩ := h.inside e he
    simp only [LockChk.addNode, length_append, length_singleton]
    omega
  · simp only [LockChk.addNode, length_append, length_singleton]
    omega

/-! ### Paths -/

/-- From a node with a mode, over an edge that conflicts with it. -/
def DepStep (E : Set LockChkEdge) (d d' : LockChkDep) : Prop :=
  ∃ e ∈ E, e.fromNode = d.node ∧ lockChkModesConflict d.mode e.fromMode = true ∧
    d' = ⟨e.toNode, e.toMode⟩

/-- There is a path that arrives at `target` in a mode that conflicts with it. -/
def Reaches (E : Set LockChkEdge) (start target : LockChkDep) : Prop :=
  ∃ d, ReflTransGen (DepStep E) start d ∧ d.node = target.node ∧
    lockChkModesConflict d.mode target.mode = true

/-- A new edge is reached from itself through old ones if and only if its tail is reached from its
head. -/
theorem reaches_iff {E : Set LockChkEdge} : Reaches E dst src ↔
    ∃ e, ReflTransGen (EdgeStep Joins E) (makeEdge src dst) e ∧
      Joins e (makeEdge src dst) := by
  refine ⟨?_, ?_⟩
  · rintro ⟨d, hpath, hnode, hmode⟩
    obtain ⟨e, he, hto⟩ : ∃ e, ReflTransGen (EdgeStep Joins E) (makeEdge src dst) e ∧
        (⟨e.toNode, e.toMode⟩ : LockChkDep) = d := by
      clear hnode hmode
      induction hpath with
      | refl => exact ⟨makeEdge src dst, .refl, rfl⟩
      | tail _ hstep ih =>
        obtain ⟨e, he, rfl⟩ := ih
        obtain ⟨f, hf, hfrom, hconf, rfl⟩ := hstep
        exact ⟨f, he.tail ⟨hf, hfrom.symm, hconf⟩, rfl⟩
    subst hto
    exact ⟨e, he, hnode, hmode⟩
  · rintro ⟨e, hpath, hnode, hmode⟩
    refine ⟨⟨e.toNode, e.toMode⟩, ?_, hnode, hmode⟩
    clear hnode hmode
    induction hpath with
    | refl => exact .refl
    | tail _ hstep ih => exact ih.tail ⟨_, hstep.1, hstep.2.1.symm, hstep.2.2, rfl⟩

/-- The number of the state of a node with a mode. -/
private def stateOf (d : LockChkDep) : ℕ := lockChkModeState d.node d.mode

private theorem stateOf_node (d : LockChkDep) : stateOf d / 2 = d.node := by
  obtain ⟨node, mode⟩ := d
  unfold stateOf lockChkModeState
  split <;> omega

private theorem stateOf_mode (d : LockChkDep) : lockChkStateMode (stateOf d) = d.mode := by
  obtain ⟨node, mode⟩ := d
  cases mode
  · have : stateOf ⟨node, .shared⟩ % 2 = 0 := by simp [stateOf, lockChkModeState]
    simp [lockChkStateMode, this]
  · have : stateOf ⟨node, .exclusive⟩ % 2 = 1 := by simp [stateOf, lockChkModeState]
    simp [lockChkStateMode, this]

private theorem stateOf_lt {n : ℕ} (h : d.node < n) : stateOf d < 2 * n := by
  have := stateOf_node d
  omega

variable (h : TableOk g)
include h

theorem TableOk.mem_outEdgesOf {e : LockChkEdge} :
    e ∈ outEdgesOf g i ↔ e ∈ g.edges ∧ e.fromNode = i := by
  unfold outEdgesOf
  cases hn : g.nodes[i]? with
  | none =>
    refine iff_of_false not_mem_nil ?_
    rintro ⟨he, rfl⟩
    have := getElem?_eq_none_iff.mp hn
    have := (h.inside e he).1
    omega
  | some n =>
    rw [map_some, getD_some, h.out i n hn, mem_filter, beq_iff_eq]

theorem TableOk.findEdge_iff : findEdge g src dst = true ↔ makeEdge src dst ∈ g.edges := by
  simp only [findEdge, List.any_eq_true, h.mem_outEdgesOf, Bool.and_eq_true, beq_iff_eq]
  refine ⟨?_, fun he => ⟨makeEdge src dst, ⟨he, rfl⟩, ⟨rfl, rfl⟩, rfl⟩⟩
  rintro ⟨⟨f, t, fm, tm⟩, ⟨he, rfl⟩, ⟨rfl, rfl⟩, rfl⟩
  exact he

private theorem mem_pathSuccs :
    y ∈ pathSuccs g (stateOf d) ↔ ∃ d', DepStep g.edgeSet d d' ∧ y = stateOf d' := by
  simp only [pathSuccs, List.mem_map, mem_filter, h.mem_outEdgesOf, stateOf_node, stateOf_mode]
  refine ⟨?_, ?_⟩
  · rintro ⟨e, ⟨⟨he, hfrom⟩, hconf⟩, rfl⟩
    exact ⟨_, ⟨e, he, hfrom, hconf, rfl⟩, rfl⟩
  · rintro ⟨d', ⟨e, he, hfrom, hconf, rfl⟩, rfl⟩
    exact ⟨e, ⟨⟨he, hfrom⟩, hconf⟩, rfl⟩

private theorem reach_states :
    ReflTransGen (fun a b => b ∈ pathSuccs g a) (stateOf start) y ↔
      ∃ d, ReflTransGen (DepStep g.edgeSet) start d ∧ y = stateOf d := by
  refine ⟨?_, ?_⟩
  · intro hy
    induction hy with
    | refl => exact ⟨start, .refl, rfl⟩
    | tail _ hstep ih =>
      obtain ⟨d, hd, rfl⟩ := ih
      obtain ⟨d', hd', rfl⟩ := (mem_pathSuccs h).mp hstep
      exact ⟨d', hd.tail hd', rfl⟩
  · rintro ⟨d, hd, rfl⟩
    induction hd with
    | refl => exact .refl
    | tail _ hstep ih => exact ih.tail ((mem_pathSuccs h).mpr ⟨_, hstep, rfl⟩)

/-- Other marks, with their generation. -/
theorem TableOk.setVisits {v : LockChkVisits} (hg : v.generation < 2 ^ 32)
    (hv : ∀ x, v.visitGeneration x ≤ v.generation) : TableOk { g with visits := v } :=
  ⟨h.chains, h.unique, h.out, h.inside, h.nodeCount, h.edgeCount, hg, hv⟩

/-- `graph_path` ends within its stack, and finds a path if and only if there is one, whatever the
generation is. -/
theorem graphPath_spec (hstart : start.node < g.nodes.length)
    (target : LockChkDep) :
    ∃ r v, graphPath g start target = some (r, { g with visits := v }) ∧
      TableOk { g with visits := v } ∧ (r = true ↔ Reaches g.edgeSet start target) := by
  obtain ⟨gen, hgen⟩ : ∃ gen, gen = (g.visits.generation + 1) % 2 ^ 32 := ⟨_, rfl⟩
  obtain ⟨v, hv⟩ : ∃ v : LockChkVisits,
      v = if gen = 0 then ⟨1, fun _ => 0⟩ else ⟨gen, g.visits.visitGeneration⟩ := ⟨_, rfl⟩
  -- the marks are older than the generation, also when it has wrapped
  have hfresh : v.generation < 2 ^ 32 ∧ ∀ x, v.visitGeneration x < v.generation := by
    rw [hv]
    split
    case isTrue => exact ⟨by decide, fun _ => Nat.one_pos⟩
    case isFalse hne =>
      have hlt := h.generation
      have hgen' : gen = g.visits.generation + 1 := by omega
      refine ⟨by dsimp only; omega, fun x => ?_⟩
      have := h.visits x
      dsimp only
      omega
  have hsucc : ∀ x ∈ Finset.range (2 * g.nodes.length), ∀ y ∈ pathSuccs g x,
      y ∈ Finset.range (2 * g.nodes.length) := by
    intro x _ y hy
    simp only [pathSuccs, List.mem_map, mem_filter, h.mem_outEdgesOf] at hy
    obtain ⟨e, ⟨⟨he, -⟩, -⟩, rfl⟩ := hy
    exact Finset.mem_range.mpr (stateOf_lt (d := ⟨e.toNode, e.toMode⟩) (h.inside e he).2)
  have hcard : (Finset.range (2 * g.nodes.length)).card ≤ lockChkModeStateCount := by
    have := h.nodeCount
    rw [Finset.card_range, lockChkModeStateCount]
    omega
  obtain ⟨r, mark, hsearch, hiff, hold⟩ := markedSearch_spec
    (fun st => st / 2 == target.node &&
      lockChkModesConflict (lockChkStateMode st) target.mode)
    (Finset.mem_range.mpr (stateOf_lt hstart)) hsucc hcard (Nat.lt_succ_of_le hcard)
    (fun y => Nat.ne_of_lt (hfresh.2 y))
  refine ⟨r, ⟨v.generation, mark⟩, ?_, h.setVisits hfresh.1 ?_, ?_⟩
  · unfold graphPath
    dsimp only
    rw [← hgen, ← hv]
    change (markedSearch _ _ _ _ _ [stateOf start] (update _ (stateOf start) _)).map _ = _
    rw [hsearch]
    rfl
  · intro x
    rcases hold x with hx | hx
    · exact Nat.le_of_eq hx
    · have := hfresh.2 x
      dsimp only
      omega
  · rw [hiff]
    refine ⟨?_, ?_⟩
    · rintro ⟨y, hy, hgoal⟩
      obtain ⟨d, hd, rfl⟩ := (reach_states h).mp hy
      rw [stateOf_node, stateOf_mode, Bool.and_eq_true, beq_iff_eq] at hgoal
      exact ⟨d, hd, hgoal⟩
    · rintro ⟨d, hd, hgoal⟩
      refine ⟨stateOf d, (reach_states h).mpr ⟨d, hd, rfl⟩, ?_⟩
      rw [stateOf_node, stateOf_mode, Bool.and_eq_true, beq_iff_eq]
      exact hgoal

end Charmos.LockChk

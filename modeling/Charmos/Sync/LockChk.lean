import Charmos.Lib.MarkedSearch

/-!
# The lock-order validator

The validator keeps a graph. Its nodes are the pairs of a lock class and a subclass that have been
acquired, and it has an edge for each pair of a held lock and a lock that was then waited for, with
the modes of both. Before a lock is acquired, `lock_chk_graph_prepare_acq` finds or makes its node,
checks the context, and for a blocking acquisition searches whether one of the new edges would close
a cycle. If anything fails, what was made on the way is taken back.

A call holds the lock of the graph from its beginning to its end, and is one step here. Classes are
the addresses of their descriptors, and nodes are named by their index, which is their `id`. The
sites of the edges and what is only used for reports are left out. `none` stands for a write outside
of the stack of the search, or for a search that does not end.
-/

namespace Charmos.LockChk

open Function

inductive LockChkResult
  | ok
  | cycle
  | nodeCapacity
  | edgeCapacity
  | badContext
  | internal
deriving DecidableEq, Repr

/-- The modes that `lock_chk_mode_bit` lets pass. -/
inductive LockChkMode
  | shared
  | exclusive
deriving DecidableEq, Repr

inductive LockChkType
  | spin
  | qspin
  | mutex
  | mutexSimple
  | rwlock
deriving DecidableEq, Repr

def lockChkModesConflict (a b : LockChkMode) : Bool :=
  a == .exclusive || b == .exclusive

def lockChkTypeIsSpin (type : LockChkType) : Bool :=
  type == .spin || type == .qspin

/-- `LOCK_CHK_MAX_NODES`. -/
def lockChkMaxNodes : ℕ := 1024

/-- `LOCK_CHK_MAX_EDGES`. -/
def lockChkMaxEdges : ℕ := 8192

/-- `LOCK_CHK_MODE_STATE_COUNT`. -/
def lockChkModeStateCount : ℕ := lockChkMaxNodes * 2

/-- `LOCK_CHK_MAX_SUBCLASSES`. -/
def lockChkMaxSubclasses : ℕ := 8

/-- `lock_chk_class_hash`, for the address of a class. -/
def lockChkClassHash (cls subclass : ℕ) : ℕ :=
  ((cls >>> 4) ^^^ (cls >>> 13) ^^^ subclass) % 1024

structure LockChkEdge where
  fromNode : ℕ
  toNode : ℕ
  fromMode : LockChkMode
  toMode : LockChkMode
deriving DecidableEq, Repr

structure LockChkNode where
  cls : ℕ
  subclass : ℕ
  contextBits : BitVec 8
  outEdges : List LockChkEdge

structure LockChkDep where
  node : ℕ
  mode : LockChkMode
deriving DecidableEq, Repr

/-- What one search leaves for the next. -/
structure LockChkVisits where
  generation : ℕ
  visitGeneration : ℕ → ℕ

structure LockChkGraph where
  nodes : List LockChkNode
  classHash : ℕ → List ℕ
  edges : List LockChkEdge
  visits : LockChkVisits

/-- `struct lock_chk_map`: the class of a lock, or the one that is part of the lock itself. -/
structure LockChkMap where
  cls : Option ℕ
  instanceClass : ℕ
  baseNode : Option ℕ
deriving DecidableEq, Repr

def lockChkMapClass (map : LockChkMap) : ℕ :=
  map.cls.getD map.instanceClass

/-- `struct lock_chk_acq_req`. A request for a spin lock whose flags do not say how interrupts are
masked stops the kernel in `record_ctx`, unless that is not looked at. -/
structure LockChkAcqReq where
  type : LockChkType
  mode : LockChkMode
  prevIrql : ℤ
  subclass : ℕ
  opFlags : BitVec 8
  irqsEnabled : Bool
  inIrq : Bool
  /-- `irq_in_interrupt` during the call. -/
  inInterrupt : Bool
  enforced : lockChkTypeIsSpin type = true → (inIrq || inInterrupt) = false →
    opFlags &&& 4 = 0 → opFlags &&& 3 ≠ 0

/-- `struct lock_chk_held`. -/
structure LockChkHeld where
  node : ℕ
  mode : LockChkMode
  /-- `LOCK_CHKD_ORDER`. -/
  order : Bool
deriving DecidableEq, Repr

/-! ### Nodes -/

/-- Whether a node is the one of a class and a subclass. -/
def LockChkNode.isFor (n : LockChkNode) (cls subclass : ℕ) : Bool :=
  n.cls == cls && n.subclass == subclass

/-- `find_node`. -/
def findNode (g : LockChkGraph) (cls subclass : ℕ) : Option ℕ :=
  (g.classHash (lockChkClassHash cls subclass)).find? fun i =>
    (g.nodes[i]?).any (·.isFor cls subclass)

/-- A new node, at the head of its chain. -/
def addNode (g : LockChkGraph) (cls subclass : ℕ) : LockChkGraph :=
  let hash := lockChkClassHash cls subclass
  { g with
    nodes := g.nodes ++ [⟨cls, subclass, 0, []⟩]
    classHash := update g.classHash hash (g.nodes.length :: g.classHash hash) }

/-- The node of a class and a subclass, which is made if there is none and the table has room. -/
def findOrAddNode (g : LockChkGraph) (cls subclass : ℕ) : Option (LockChkGraph × ℕ) :=
  match findNode g cls subclass with
  | some i => some (g, i)
  | none =>
    if g.nodes.length = lockChkMaxNodes then none
    else some (addNode g cls subclass, g.nodes.length)

def contextBitsOf (g : LockChkGraph) (i : ℕ) : BitVec 8 :=
  ((g.nodes[i]?).map (·.contextBits)).getD 0

def setContextBits (g : LockChkGraph) (i : ℕ) (bits : BitVec 8) : LockChkGraph :=
  { g with nodes := g.nodes.modify i fun n => { n with contextBits := bits } }

/-- The context of a request: `LOCK_CHK_CTX_IRQ`, `LOCK_CHK_CTX_SPIN_DISPATCH` or
`LOCK_CHK_CTX_SPIN_HIGH`. -/
def reqCtx (req : LockChkAcqReq) : BitVec 8 :=
  if req.inIrq || req.inInterrupt then 1
  else if req.opFlags &&& 4 ≠ 0 then
    if 4 ≤ req.prevIrql || !req.irqsEnabled then 4 else 2
  else if req.opFlags &&& 3 = 2 then 4
  else 2

/-- `record_ctx`, on the context bits of the node. -/
def recordCtx (bits : BitVec 8) (req : LockChkAcqReq) : LockChkResult × BitVec 8 :=
  if !lockChkTypeIsSpin req.type then (.ok, bits)
  else
    let ctx := reqCtx req
    if (ctx = 2 ∧ bits &&& 5 ≠ 0) ∨ ((ctx = 4 ∨ ctx = 1) ∧ bits &&& 2 ≠ 0) then (.badContext, bits)
    else (.ok, bits ||| ctx)

/-- What a call leaves, and its result. -/
structure LockChkAcq where
  graph : LockChkGraph
  map : LockChkMap
  result : LockChkResult
  out : Option ℕ

/-- `resolve_node`. -/
def resolveNode (g : LockChkGraph) (map : LockChkMap) (req : LockChkAcqReq) : LockChkAcq :=
  if lockChkMaxSubclasses ≤ req.subclass then ⟨g, map, .internal, none⟩
  else
    match findOrAddNode g (lockChkMapClass map) 0 with
    | none => ⟨g, map, .nodeCapacity, none⟩
    | some (g₁, base) =>
      let map₁ := { map with baseNode := some base }
      let ctx := recordCtx (contextBitsOf g₁ base) req
      let g₂ := setContextBits g₁ base ctx.2
      if ctx.1 ≠ .ok then ⟨g₂, map₁, ctx.1, none⟩
      else if req.subclass = 0 then ⟨g₂, map₁, .ok, some base⟩
      else
        match findOrAddNode g₂ (lockChkMapClass map) req.subclass with
        | none => ⟨g₂, map₁, .nodeCapacity, none⟩
        | some (g₃, node) => ⟨g₃, map₁, .ok, some node⟩

/-! ### Edges -/

def outEdgesOf (g : LockChkGraph) (i : ℕ) : List LockChkEdge :=
  ((g.nodes[i]?).map (·.outEdges)).getD []

/-- `find_edge`. -/
def findEdge (g : LockChkGraph) (src dst : LockChkDep) : Bool :=
  (outEdgesOf g src.node).any fun e =>
    e.toNode == dst.node && e.fromMode == src.mode && e.toMode == dst.mode

def lockChkModeState (node : ℕ) (mode : LockChkMode) : ℕ :=
  node * 2 + if mode = .exclusive then 1 else 0

def lockChkStateMode (state : ℕ) : LockChkMode :=
  if state % 2 ≠ 0 then .exclusive else .shared

/-- The states that `graph_path` goes on to. -/
def pathSuccs (g : LockChkGraph) (state : ℕ) : List ℕ :=
  ((outEdgesOf g (state / 2)).filter fun e =>
    lockChkModesConflict (lockChkStateMode state) e.fromMode).map fun e =>
      lockChkModeState e.toNode e.toMode

/-- `graph_path`: whether `target` can be reached from `start`. -/
def graphPath (g : LockChkGraph) (start target : LockChkDep) : Option (Bool × LockChkGraph) :=
  let gen := (g.visits.generation + 1) % 2 ^ 32
  let v : LockChkVisits := if gen = 0 then ⟨1, fun _ => 0⟩ else ⟨gen, g.visits.visitGeneration⟩
  let state := lockChkModeState start.node start.mode
  (markedSearch (pathSuccs g)
    (fun st => st / 2 == target.node && lockChkModesConflict (lockChkStateMode st) target.mode)
    lockChkModeStateCount v.generation (lockChkModeStateCount + 1) [state]
    (update v.visitGeneration state v.generation)).map fun r =>
      (r.1, { g with visits := ⟨v.generation, r.2⟩ })

def makeEdge (src dst : LockChkDep) : LockChkEdge :=
  ⟨src.node, dst.node, src.mode, dst.mode⟩

/-- `publish_edge`. -/
def publishEdge (g : LockChkGraph) (src dst : LockChkDep) : LockChkGraph :=
  { g with
    edges := g.edges ++ [makeEdge src dst]
    nodes := g.nodes.modify src.node fun n =>
      { n with outEdges := n.outEdges ++ [makeEdge src dst] } }

/-- `lock_chk_graph_add_dep`. -/
def lockChkGraphAddDep (g : LockChkGraph) (src dst : LockChkDep) :
    Option (LockChkResult × LockChkGraph) :=
  if findEdge g src dst then some (.ok, g)
  else
    (graphPath g dst src).map fun r =>
      if r.1 then (.cycle, r.2)
      else if r.2.edges.length = lockChkMaxEdges then (.edgeCapacity, r.2)
      else (.ok, publishEdge r.2 src dst)

/-- `dep_repeated`, with the locks before. -/
def depRepeated (prior : List LockChkHeld) (h : LockChkHeld) : Bool :=
  prior.any fun p => p.order && p.node == h.node && p.mode == h.mode

/-- The dependencies of the held locks, those of `held_contribs`. -/
def heldDepsFrom (prior : List LockChkHeld) : List LockChkHeld → List LockChkDep
  | [] => []
  | h :: rest =>
    if h.order && !depRepeated prior h then ⟨h.node, h.mode⟩ :: heldDepsFrom (prior ++ [h]) rest
    else heldDepsFrom (prior ++ [h]) rest

def heldDeps (held : List LockChkHeld) : List LockChkDep :=
  heldDepsFrom [] held

/-- The first loop of `add_held_deps`: how many edges are missing, or `none` for a cycle. -/
def checkHeldDeps (dst : LockChkDep) :
    List LockChkDep → ℕ → LockChkGraph → Option (Option ℕ × LockChkGraph)
  | [], missing, g => some (some missing, g)
  | src :: rest, missing, g =>
    if findEdge g src dst then checkHeldDeps dst rest missing g
    else
      (graphPath g dst src).bind fun r =>
        if r.1 then some (none, r.2) else checkHeldDeps dst rest (missing + 1) r.2

/-- The second loop of `add_held_deps`. -/
def publishHeldDeps (dst : LockChkDep) : List LockChkDep → LockChkGraph → LockChkGraph
  | [], g => g
  | src :: rest, g =>
    publishHeldDeps dst rest (if findEdge g src dst then g else publishEdge g src dst)

/-- `add_held_deps`. -/
def addHeldDeps (g : LockChkGraph) (held : List LockChkHeld) (dst : LockChkDep) :
    Option (LockChkResult × LockChkGraph) :=
  (checkHeldDeps dst (heldDeps held) 0 g).map fun
    | (none, g₁) => (.cycle, g₁)
    | (some missing, g₁) =>
      if lockChkMaxEdges - g₁.edges.length < missing then (.edgeCapacity, g₁)
      else (.ok, publishHeldDeps dst (heldDeps held) g₁)

/-! ### Acquisitions -/

/-- One round of `rollback_nodes`. -/
def rollbackNode (g : LockChkGraph) : LockChkGraph :=
  match g.nodes.getLast? with
  | none => g
  | some n =>
    let hash := lockChkClassHash n.cls n.subclass
    { g with
      nodes := g.nodes.dropLast
      classHash := update g.classHash hash
        ((g.classHash hash).erase (g.nodes.length - 1)) }

/-- `rollback_nodes`. -/
def rollbackNodes (g : LockChkGraph) (oldNodeCount : ℕ) : LockChkGraph :=
  rollbackNode^[g.nodes.length - oldNodeCount] g

/-- `LOCK_OP_KIND_BLOCKING`. -/
def LockChkAcqReq.blocking (req : LockChkAcqReq) : Bool :=
  req.opFlags &&& 0x18 == 8

/-- What `lock_chk_graph_prepare_acq` does with the graph at its label `rollback`; `g` is the graph
as it was at the beginning. -/
def rollbackAcq (g : LockChkGraph) (map : LockChkMap) (g' : LockChkGraph) : LockChkGraph :=
  let existingBase := findNode g (lockChkMapClass map) 0
  let oldContextBits := (existingBase.map (contextBitsOf g)).getD 0
  let g₁ := rollbackNodes g' g.nodes.length
  existingBase.elim g₁ fun base => setContextBits g₁ base oldContextBits

/-- `lock_chk_graph_prepare_acq`. -/
def lockChkGraphPrepareAcq (g : LockChkGraph) (held : List LockChkHeld) (req : LockChkAcqReq)
    (map : LockChkMap) : Option LockChkAcq :=
  let r := resolveNode g map req
  let rollback := fun (g' : LockChkGraph) (result : LockChkResult) =>
    (⟨rollbackAcq g map g', { r.map with baseNode := map.baseNode }, result, none⟩ : LockChkAcq)
  match r.result, r.out with
  | .ok, some node =>
    if req.blocking then
      (addHeldDeps r.graph held ⟨node, req.mode⟩).map fun d =>
        if d.1 = .ok then { r with graph := d.2 } else rollback d.2 d.1
    else some r
  | result, _ => some (rollback r.graph result)

/-! ### The system -/

/-- The graph and the maps of the locks. -/
structure LockChkSys (L : Type) where
  graph : LockChkGraph
  maps : L → LockChkMap

/-- `lock_chk_graph_init`. -/
def lockChkGraphInit : LockChkGraph where
  nodes := []
  classHash _ := []
  edges := []
  visits := ⟨0, fun _ => 0⟩

/-- The locks that are held have nodes. -/
def HeldOk (g : LockChkGraph) (held : List LockChkHeld) : Prop :=
  ∀ h ∈ held, h.order = true → h.node < g.nodes.length

/-- A step of the system: a lock is about to be acquired by a thread that holds some locks, or a
dependency is added directly. -/
inductive LockChkStep {L : Type} [DecidableEq L] (s : LockChkSys L) : LockChkSys L → Prop
  | acquire (held : List LockChkHeld) (req : LockChkAcqReq) (l : L) (r : LockChkAcq)
      (hheld : HeldOk s.graph held)
      (hr : lockChkGraphPrepareAcq s.graph held req (s.maps l) = some r) :
      LockChkStep s ⟨r.graph, update s.maps l r.map⟩
  | addDep (src dst : LockChkDep) (r : LockChkResult × LockChkGraph)
      (hsrc : src.node < s.graph.nodes.length) (hdst : dst.node < s.graph.nodes.length)
      (hr : lockChkGraphAddDep s.graph src dst = some r) : LockChkStep s { s with graph := r.2 }

end Charmos.LockChk

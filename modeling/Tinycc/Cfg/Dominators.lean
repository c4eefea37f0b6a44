import Tinycc.Cfg.Build
import Tinycc.Lib.DfsLoop

namespace Tinycc
open Lib Function

structure RpoState where
  visited : ℕ → Bool
  postorder : List ℕ
  stack : List DfsFrame

variable (cfg : IRCFG)

def rpoStep (st : RpoState) : RpoState :=
  match st.stack with
  | [] => st
  | top :: rest =>
    match (cfg.blocks top.block).succs[top.ci]? with
    | some s =>
      let stack := { top with ci := top.ci + 1 } :: rest
      if s < cfg.numBlocks ∧ st.visited s = false then
        { st with visited := update st.visited s true, stack := ⟨s, 0⟩ :: stack }
      else { st with stack := stack }
    | none => { st with postorder := st.postorder ++ [top.block], stack := rest }

/-- `tcc_ir_cfg_compute_rpo`; `none` would be a search that does not end. -/
def tccIrCfgComputeRpo : Option IRCFG :=
  if cfg.numBlocks = 0 then some cfg
  else do
    let st ← whileLoop (fun st : RpoState => !st.stack.isEmpty) (rpoStep cfg)
      (dfsFuel cfg.numBlocks fun b => (cfg.blocks b).succs)
      { visited := update (fun _ => false) 0 true, postorder := [], stack := [⟨0, 0⟩] }
    let rpoOrder := st.postorder.reverse
    some (forRange rpoOrder.length
      (fun cfg i => cfg.modifyBlock (rpoOrder.getD i 0) fun bb => { bb with rpoNumber := some i })
      { cfg with rpoOrder := rpoOrder })

/-- The arrays of the semidominator forest, indexed by preorder number. -/
structure SncaState where
  semi : ℕ → ℕ
  ancestor : ℕ → Option ℕ
  label : ℕ → ℕ

/-- The forest parent of a vertex is not a root, so the vertex is not compressed yet. -/
def sncaUncompressed (st : SncaState) (u : ℕ) : Bool :=
  match st.ancestor u with
  | some a => (st.ancestor a).isSome
  | none => false

def sncaCompress (st : SncaState) (x : ℕ) : SncaState :=
  let a := (st.ancestor x).getD 0
  { st with
    label :=
      if st.semi (st.label a) < st.semi (st.label x) then update st.label x (st.label a)
      else st.label,
    ancestor := update st.ancestor x (st.ancestor a) }

def cfgSncaEval (v : ℕ) (st : SncaState) : Option (ℕ × SncaState) :=
  if st.ancestor v = none then some (v, st)
  else do
    let (stk, _) ← whileLoop (fun s : List ℕ × ℕ => sncaUncompressed st s.2)
      (fun s => (s.2 :: s.1, (st.ancestor s.2).getD 0)) (v + 1) ([], v)
    let st := stk.foldl sncaCompress st
    some (st.label v, st)

structure DomDfs where
  pre : ℕ → Option ℕ
  vertex : ℕ → ℕ
  parent : ℕ → ℕ
  np : ℕ
  stack : List DfsFrame

def domDfsStep (st : DomDfs) : DomDfs :=
  match st.stack with
  | [] => st
  | top :: rest =>
    match (cfg.blocks top.block).succs[top.ci]? with
    | some s =>
      let stack := { top with ci := top.ci + 1 } :: rest
      if s < cfg.numBlocks ∧ st.pre s = none then
        { pre := update st.pre s (some st.np),
          vertex := update st.vertex st.np s,
          parent := update st.parent st.np ((st.pre top.block).getD 0),
          np := st.np + 1, stack := ⟨s, 0⟩ :: stack }
      else { st with stack := stack }
    | none => { st with stack := rest }

def domDfs : Option DomDfs :=
  whileLoop (fun st : DomDfs => !st.stack.isEmpty) (domDfsStep cfg)
    (dfsFuel cfg.numBlocks fun b => (cfg.blocks b).succs)
    { pre := update (fun _ => none) 0 (some 0), vertex := fun _ => 0,
      parent := fun _ => 0, np := 1, stack := [⟨0, 0⟩] }

def sncaPredStep (dfs : DomDfs) (w : ℕ) (st : SncaState) (p : ℕ) :
    Option SncaState :=
  if cfg.numBlocks ≤ p then some st
  else
    match dfs.pre p with
    | none => some st
    | some v => do
      let (u, st) ← cfgSncaEval v st
      some (if st.semi u < st.semi w then { st with semi := update st.semi w (st.semi u) }
        else st)

def sncaSemiStep (dfs : DomDfs) (st : SncaState) (w : ℕ) : Option SncaState := do
  let st ← (cfg.blocks (dfs.vertex w)).preds.foldlM (sncaPredStep cfg dfs w) st
  some { st with ancestor := update st.ancestor w (some (dfs.parent w)) }

def sncaSemidominators (dfs : DomDfs) : Option SncaState :=
  forDownM (dfs.np - 1) (fun st i => sncaSemiStep cfg dfs st (i + 1))
    { semi := fun i => i, ancestor := fun _ => none, label := fun i => i }

def sncaIdomStep (dfs : DomDfs) (semi : ℕ → ℕ) (st : (ℕ → ℕ) × IRCFG) (i : ℕ) :
    Option ((ℕ → ℕ) × IRCFG) := do
  let w := i + 1
  let a ← whileLoop (fun a => decide (semi w < a)) st.1 (dfs.parent w + 1) (dfs.parent w)
  some (update st.1 w a,
    st.2.modifyBlock (dfs.vertex w) fun bb => { bb with idom := some (dfs.vertex a) })

/-- The semi-NCA construction, on a graph of more than one block. -/
def sncaIdoms : Option IRCFG := do
  let dfs ← domDfs cfg
  let snca ← sncaSemidominators cfg dfs
  let idomPre := update (fun i => (snca.ancestor i).getD 0) 0 0
  let (_, cfg) ← forRangeM (dfs.np - 1) (sncaIdomStep dfs snca.semi) (idomPre, cfg)
  some cfg

def domParent (b : ℕ) : Option ℕ :=
  match (cfg.blocks b).idom with
  | some p => if b ≠ 0 ∧ p ≠ b then some p else none
  | none => none

def domCcountStep (ccount : ℕ → ℕ) (b : ℕ) : ℕ → ℕ :=
  match domParent cfg b with
  | some p => update ccount p (ccount p + 1)
  | none => ccount

def domCcount : ℕ → ℕ := cfg.rpoOrder.foldl (domCcountStep cfg) fun _ => 0

def domCstart : ℕ → ℕ :=
  forRange cfg.numBlocks
    (fun cstart i => update cstart (i + 1) (cstart i + domCcount cfg i)) fun _ => 0

def domChldStep (st : (ℕ → ℕ) × (ℕ → ℕ)) (b : ℕ) : (ℕ → ℕ) × (ℕ → ℕ) :=
  match domParent cfg b with
  | some p => (update st.1 (st.2 p) b, update st.2 p (st.2 p + 1))
  | none => st

/-- The children of all blocks in one array, each block's from its `cstart` on. -/
def domChld : ℕ → ℕ :=
  (cfg.rpoOrder.foldl (domChldStep cfg) ((fun _ => 0), domCstart cfg)).1

/-- The search over the dominator tree that stamps each block on entry and on exit. -/
structure StampState where
  nxt : ℕ → ℕ
  tin : ℕ → Option ℕ
  tout : ℕ → Option ℕ
  clock : ℕ
  stack : List ℕ

def stampStep (cstart chld : ℕ → ℕ) (st : StampState) : StampState :=
  match st.stack with
  | [] => st
  | b :: rest =>
    if st.nxt b < cstart (b + 1) then
      let c := chld (st.nxt b)
      { nxt := update st.nxt b (st.nxt b + 1),
        tin := update st.tin c (some st.clock), tout := st.tout,
        clock := st.clock + 1, stack := c :: b :: rest }
    else
      { st with
        tout := update st.tout b (some st.clock), clock := st.clock + 1, stack := rest }

def domStamps : Option IRCFG := do
  let st : StampState :=
    { nxt := domCstart cfg, tin := fun _ => none, tout := fun _ => none, clock := 0, stack := [] }
  let st ←
    if 0 < cfg.rpoOrder.length then
      whileLoop (fun st : StampState => !st.stack.isEmpty) (stampStep (domCstart cfg) (domChld cfg))
        (2 * cfg.numBlocks + 1)
        { st with tin := update st.tin 0 (some 0), clock := 1, stack := [0] }
    else some st
  some { cfg with domTin := some st.tin, domTout := some st.tout, domDfsCount := cfg.numBlocks }

def tccIrCfgComputeDominators : Option IRCFG :=
  if cfg.numBlocks = 0 then some cfg
  else do
    let cfg ← tccIrCfgComputeRpo cfg
    let cfg := cfg.modifyBlock 0 fun bb => { bb with idom := some 0 }
    let cfg ← if 1 < cfg.numBlocks then sncaIdoms cfg else some cfg
    domStamps cfg

/-- The walk up the `idom` chain from `b`, cut off after a number of turns. -/
def cfgDomWalk (cfg : IRCFG) (a : ℕ) : ℕ → Option ℕ → Option Bool
  | 0, _ => none
  | _ + 1, none => some false
  | n + 1, some b =>
    if b = a then some true
    else if (cfg.blocks b).idom = some b then some (decide (b = a))
    else cfgDomWalk cfg a n (cfg.blocks b).idom

def tccIrCfgDominates (a b : ℤ) : Option Bool :=
  if a < 0 ∨ b < 0 ∨ cfg.numBlocks ≤ a ∨ cfg.numBlocks ≤ b then some false
  else if a = b then some true
  else
    match cfg.domTin, cfg.domTout with
    | some tin, some tout =>
      if a < cfg.domDfsCount ∧ b < cfg.domDfsCount then
        match tin a.toNat, tin b.toNat with
        | some ta, some tb =>
          some (decide (ta < tb) && match tout a.toNat, tout b.toNat with
            | some oa, some ob => decide (ob < oa)
            | some _, none => true
            | none, _ => false)
        | _, _ => some false
      else cfgDomWalk cfg a.toNat (cfg.numBlocks + 1) (some b.toNat)
    | _, _ => cfgDomWalk cfg a.toNat (cfg.numBlocks + 1) (some b.toNat)

end Tinycc

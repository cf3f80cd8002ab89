import Mathlib
import StageScript.Proofs.Analysis.Reach
import StageScript.Proofs.Check.Violations

/-!
# Names are resolved lexically

A node sees the tables of the blocks around it (`Tree.Sees`), wherever a walk comes from.  To
say that no walk ever gives a node other tables, the walk is compared with one that goes
astray as soon as it does: for a node that is given tables which it does not see, the straying
walk does something else, whatever that is.  Both do the same (`straying_fromRoot`), and the
same holds of the checks (`straying_root`).
-/

namespace StageScript

/-- The tables of the blocks around a node are those of `chain`, the innermost first. -/
def Tree.Sees (t : Tree) (id : NodeId) (chain : Chain) : Prop :=
  ∃ place, Stands t place id ∧ place.chain = chain

theorem Stands.sees {t : Tree} {place : Place} {id : NodeId} (hs : Stands t place id) :
    t.Sees id place.chain :=
  ⟨place, hs, rfl⟩

theorem Tree.WellFormed.exists_unique_sees {t : Tree} (h : t.WellFormed) {id : NodeId}
    (hid : id < t.size) : ∃! chain, t.Sees id chain := by
  obtain ⟨place, hs⟩ := h.exists_place hid
  refine ⟨place.chain, hs.sees, ?_⟩
  rintro _ ⟨q, hq, rfl⟩
  rw [hs.unique h hq]

/-! ### Walks -/

namespace Analysis

open Classical in
/-- The walk, with `stray` instead for a node that is given tables which it does not see. -/
noncomputable def straying (t : Tree) (stray walk : Walker) : Walker := fun chain id =>
  if t.Sees id chain then walk chain id else stray chain id

noncomputable def strayingAt (t : Tree) (options : Options) (stray : Walker) : Nat → Walker
  | 0 => straying t stray (walkAt t options 0)
  | depth + 1 => straying t stray (nodeWith t options (strayingAt t options stray depth))

def fromRoot (t : Tree) (options : Options) (walk : Walker) : Except Diagnostic Annotations := do
  let (_, annotations) ← block t options walk [] t.root ((Annotations.ofTree t).visit t.root)
  return annotations

theorem analyze_eq_fromRoot (t : Tree) (options : Options) :
    analyze t options = fromRoot t options (walkAt t options (maxDepth t)) := rfl

def Agree (t : Tree) (walk other : Walker) : Prop :=
  ∀ {place : Place} {id : NodeId}, Stands t place id → walk place.chain id = other place.chain id

variable {t : Tree} {options : Options} {walk other : Walker} {place : Place} {id : NodeId}

theorem walkAll_congr {chain : Chain} {ids : List NodeId}
    (h : ∀ c ∈ ids, walk chain c = other chain c) :
    walkAll walk chain ids = walkAll other chain ids := by
  induction ids with
  | nil => rfl
  | cons c ids ih =>
    rw [walkAll, walkAll, h c List.mem_cons_self, ih fun d hd => h d (List.mem_cons_of_mem c hd)]

/-- What a name stands for is walked with the tables of the block that declares it. -/
theorem resolve_congr (h : Agree t walk other) {chain : Chain} {name : String}
    (hChain : ∀ declared d, chain.declaring? name = some (declared, d) →
      ∃ q, Stands t q d ∧ q.chain = declared) :
    resolve walk chain name = resolve other chain name := by
  rw [resolve, resolve]
  cases hd : chain.declaring? name with
  | none => rfl
  | some found =>
    obtain ⟨declared, d⟩ := found
    obtain ⟨q, hq, rfl⟩ := hChain declared d hd
    simp only [h hq]

theorem reference_congr (h : Agree t walk other) (hs : Stands t place id) (name : String)
    {args : List NodeId} (hArgs : ∀ c ∈ args, walk place.chain c = other place.chain c) :
    reference t walk place.chain id name args = reference t other place.chain id name args := by
  rw [reference, reference, resolve_congr h fun _ _ => hs.declaring?, walkAll_congr hArgs]

theorem block_congr (h : Agree t walk other) (hs : Stands t place id) {stmts : List NodeId}
    {table : NameTable} (hk : t.kind? id = some (.block stmts table)) :
    block t options walk place.chain id = block t options other place.chain id := by
  have hStmts : walkAll walk (table :: place.chain) stmts =
      walkAll other (table :: place.chain) stmts :=
    walkAll_congr fun c hc => h (.part hs hk hc)
  have hEntry : ∀ name, resolve walk (table :: place.chain) name =
      resolve other (table :: place.chain) name :=
    fun name => resolve_congr h fun _ _ => hs.declaring?_inside hk
  rw [block, block, lift_bind (Tree.block_of_kind? hk), lift_bind (Tree.block_of_kind? hk)]
  simp only [hStmts, hEntry]

theorem definition_congr {d : Definition} (hk : t.kind? id = some (.definition d))
    (h : Agree t walk other) (hs : Stands t place id) :
    definition walk place.chain id d = definition other place.chain id d := by
  cases hb : d.body? with
  | none => rw [definition_of_bodyless hb, definition_of_bodyless hb]
  | some body =>
    rw [definition_of_body? hb, definition_of_body? hb]
    show walk (place.part (.definition d) body).chain body = _
    exact h (.part hs hk (NodeKind.mem_children_of_body? hb))

/-- Walks that agree on the parts of a node and on what its names stand for agree on the
node. -/
theorem nodeWith_congr (hTree : t.WellFormed) (h : Agree t walk other) (hs : Stands t place id) :
    nodeWith t options walk place.chain id = nodeWith t options other place.chain id := by
  obtain ⟨k, hk⟩ := Tree.exists_kind?_of_lt (hs.lt_size hTree)
  have hPart : ∀ c, c ∈ k.children → (∀ stmts table, k ≠ .block stmts table) →
      walk place.chain c = other place.chain c := by
    intro c hc hb
    rw [← place.part_chain_of_ne_block hb c]
    exact h (.part hs hk hc)
  have hAll : ∀ ids, (∀ c ∈ ids, c ∈ k.children) → (∀ stmts table, k ≠ .block stmts table) →
      walkAll walk place.chain ids = walkAll other place.chain ids :=
    fun ids hIds hb => walkAll_congr fun c hc => hPart c (hIds c hc) hb
  have hName : ∀ name, resolve walk place.chain name = resolve other place.chain name :=
    fun name => resolve_congr h fun _ _ => hs.declaring?
  obtain ⟨node, hn, rfl⟩ := Tree.kind?_eq_some_iff.mp hk
  rw [nodeWith, nodeWith, lift_bind (Tree.node_of_get? hn), lift_bind (Tree.node_of_get? hn)]
  refine congrArg (visit id >>= ·) (funext fun _ => ?_)
  obtain ⟨kind, span⟩ := node
  cases kind with
  | num value | char value | str value => rfl
  | array elems => simp only [hAll elems (fun _ hc => hc) (by simp)]
  | unary op operand => simp only [hPart operand (by simp [NodeKind.children]) (by simp)]
  | binary op first second | element first second | range first second | slice first second
  | assign op first second =>
    simp only [hPart first (by simp [NodeKind.children]) (by simp),
      hPart second (by simp [NodeKind.children]) (by simp)]
  | ref name => exact reference_congr h hs name (by simp)
  | call name args => exact reference_congr h hs name fun c hc => hPart c hc (by simp)
  | target name indices =>
    simp only [hName name, hAll indices (fun _ hc => hc) (by simp)]
  | succ lhs | pred lhs => simp only [hPart lhs (by simp [NodeKind.children]) (by simp)]
  | varInit name rhs =>
    simp only [hName name, hPart rhs (by simp [NodeKind.children]) (by simp)]
  | callStmt name args =>
    simp only [hName name, hAll args (fun _ hc => hc) (by simp)]
  | block stmts table => exact block_congr h hs hk
  | definition d => exact definition_congr hk h hs
  | _ => simp only [hAll _ (fun _ hc => hc) (by simp)]

theorem agree_straying {stray : Walker} (h : Agree t walk other) :
    Agree t (straying t stray walk) other := by
  intro place id hs
  rw [straying, if_pos hs.sees]
  exact h hs

/-- A walk never gives a node tables that it does not see. -/
theorem agree_strayingAt (hTree : t.WellFormed) (stray : Walker) (depth : Nat) :
    Agree t (strayingAt t options stray depth) (walkAt t options depth) := by
  induction depth with
  | zero => exact agree_straying fun _ => rfl
  | succ depth ih => exact agree_straying fun hs => nodeWith_congr hTree ih hs

theorem straying_fromRoot (hTree : t.WellFormed) (stray : Walker) :
    fromRoot t options (strayingAt t options stray (maxDepth t)) = analyze t options := by
  obtain ⟨stmts, table, hk⟩ := hTree.root_block
  have hBlock : block t options (strayingAt t options stray (maxDepth t)) [] t.root =
      block t options (walkAt t options (maxDepth t)) [] t.root :=
    block_congr (agree_strayingAt hTree stray _) .root hk
  rw [analyze_eq_fromRoot, fromRoot, fromRoot, hBlock]

/-- A name is resolved to what the tables have for it. -/
theorem resolve_eq_find? {chain : Chain} {name : String} {a b : Annotations} {r : Option NodeId}
    (h : resolve walk chain name a = .ok (r, b)) : r = chain.find? name := by
  rw [resolve] at h
  rw [Chain.find?_eq_declaring?]
  cases hd : chain.declaring? name with
  | none =>
    rw [hd] at h
    cases h
    rfl
  | some found =>
    rw [hd] at h
    obtain ⟨declared, d⟩ := found
    obtain ⟨⟨again, b'⟩, -, h⟩ := exists_of_bind_eq_ok h
    cases again with
    | false =>
      cases h
      rfl
    | true =>
      obtain ⟨p, -, h⟩ := exists_of_bind_eq_ok h
      cases h
      rfl

/-- A node with a name is visited, and its name resolved in the tables that it is given. -/
theorem nodeWith_named {node : Node} {name : String} (hn : t.get? id = some node)
    (hName : node.kind.named? = some name) (walk : Walker) (chain : Chain) :
    ∃ next : Option NodeId → Analysis Unit, nodeWith t options walk chain id = (do
      visit id
      let found ← resolve walk chain name
      next found) := by
  rw [nodeWith, lift_bind (Tree.node_of_get? hn)]
  obtain ⟨kind, span⟩ := node
  cases kind <;> cases hName <;> exact ⟨_, rfl⟩

end Analysis

/-! ### Checks -/

theorem Findings.all_congr {α : Type} {f g : α → Findings} {xs : List α} (h : ∀ x ∈ xs, f x = g x) :
    all f xs = all g xs := by
  induction xs with
  | nil => rfl
  | cons x xs ih =>
    rw [all_cons, all_cons, h x List.mem_cons_self, ih fun y hy => h y (List.mem_cons_of_mem x hy)]

namespace Check

open Classical in
noncomputable def straying (t : Tree) (stray check : Checker) : Checker := fun context id =>
  if t.Sees id context.chain then check context id else stray context id

noncomputable def strayingAt (t : Tree) (stray : Checker) : Nat → Checker
  | 0 => straying t stray (checkAt t 0)
  | depth + 1 => straying t stray (nodeWith t (strayingAt t stray depth))

def fromRoot (t : Tree) (check : Checker) : Findings :=
  lookup (t.block t.root) fun _ => check ⟨[], none, false⟩ t.root

theorem root_eq_fromRoot (t : Tree) : root t = fromRoot t (checkAt t (t.size + 1)) := rfl

def Agree (t : Tree) (check other : Checker) : Prop :=
  ∀ {place : Place} {id : NodeId}, Stands t place id →
    check place.context id = other place.context id

variable {t : Tree} {check other : Checker} {place : Place} {id : NodeId}

theorem body_congr (hTree : t.WellFormed) (h : Agree t check other) (hs : Stands t place id)
    {stmts : List NodeId} {table : NameTable} (hk : t.kind? id = some (.block stmts table))
    {d : NodeId} (hd : d ∈ table.entries.map Prod.snd) :
    body t check (table :: place.chain) d = body t other (table :: place.chain) d := by
  obtain ⟨e, he⟩ := hTree.entry_definition hk hd
  rw [body, body, Tree.definition_of_kind? he, lookup, lookup]
  rcases CallableKind.ofDefinition?_cases e with ⟨hKind, -⟩ | ⟨kind, block, hKind, hBody⟩
  · rw [hKind]
  · have hCheck := h (.part (.entry hs hk hd) he (NodeKind.mem_children_of_body? hBody))
    rw [place.context_body table hKind] at hCheck
    simp only [hKind, hCheck]

/-- Checks that agree on the parts of a node, and on the bodies of what it declares, agree on
the node. -/
theorem nodeWith_congr (hTree : t.WellFormed) (h : Agree t check other) (hs : Stands t place id) :
    nodeWith t check place.context id = nodeWith t other place.context id := by
  obtain ⟨k, hk⟩ := Tree.exists_kind?_of_lt (hs.lt_size hTree)
  obtain ⟨node, hn, rfl⟩ := Tree.kind?_eq_some_iff.mp hk
  by_cases hBlock : ∃ stmts table, node.kind = .block stmts table
  · obtain ⟨stmts, table, hKind⟩ := hBlock
    rw [hKind] at hk
    have hStmts : Findings.all (check (place.inside table).context) stmts =
        Findings.all (other (place.inside table).context) stmts :=
      Findings.all_congr fun c hc => h (.part hs hk hc)
    have hBodies : Findings.all (body t check (table :: place.chain)) table.ids =
        Findings.all (body t other (table :: place.chain)) table.ids :=
      Findings.all_congr fun d hd => body_congr hTree h hs hk (table.ids_perm.mem_iff.mp hd)
    rw [nodeWith_block hn hKind, nodeWith_block hn hKind, hStmts, hBodies]
  · cases hDef : node.kind.isDefinition with
    | true => rw [nodeWith_definition hn hDef, nodeWith_definition hn hDef]
    | false =>
      have hPlain : ∀ stmts table, node.kind ≠ .block stmts table :=
        fun stmts table he => hBlock ⟨stmts, table, he⟩
      rw [nodeWith_eq hTree hn hDef hPlain, nodeWith_eq hTree hn hDef hPlain,
        Findings.all_congr fun c hc => h (.part hs hk hc)]

theorem agree_straying {stray : Checker} (h : Agree t check other) :
    Agree t (straying t stray check) other := by
  intro place id hs
  have hSees : t.Sees id place.context.chain := hs.sees
  rw [straying, if_pos hSees]
  exact h hs

/-- A check never gives a node tables that it does not see. -/
theorem agree_strayingAt (hTree : t.WellFormed) (stray : Checker) (depth : Nat) :
    Agree t (strayingAt t stray depth) (checkAt t depth) := by
  induction depth with
  | zero => exact agree_straying fun _ => rfl
  | succ depth ih => exact agree_straying fun hs => nodeWith_congr hTree ih hs

theorem straying_root (hTree : t.WellFormed) (stray : Checker) :
    fromRoot t (strayingAt t stray (t.size + 1)) = root t := by
  obtain ⟨stmts, table, hk⟩ := hTree.root_block
  rw [root_eq_fromRoot, fromRoot, fromRoot, Tree.block_of_kind? hk]
  exact agree_strayingAt hTree stray _ .root

end Check

/-! ### Names -/

/-- Along the faults of a script, a node has the fault that it is a violation by. -/
theorem mem_zip_iff_violation {t : Tree} (hTree : t.WellFormed) {ids : List NodeId}
    {faults : List Diagnostic} (hMem : ∀ id, id ∈ ids ↔ ∃ d, Violation t id d)
    (hAll : List.Forall₂ (Violation t) ids faults) {id : NodeId} {d : Diagnostic} :
    (id, d) ∈ ids.zip faults ↔ Violation t id d := by
  obtain ⟨hLength, hZip⟩ := List.forall₂_iff_zip.mp hAll
  constructor
  · exact fun hm => hZip hm
  · intro hv
    obtain ⟨i, hi, rfl⟩ := List.mem_iff_getElem.mp ((hMem id).mpr ⟨d, hv⟩)
    have hPair : (ids[i], faults[i]) ∈ ids.zip faults := by
      rw [List.mem_iff_getElem]
      exact ⟨i, by simp [← hLength, hi], by simp⟩
    rw [hv.unique hTree (hZip hPair)]
    exact hPair

theorem Breaks.undefined_inv {t : Tree} {place : Place} {k : NodeKind} {name : String}
    (h : Breaks t place k (.undefinedName name)) :
    ∀ table ∈ place.chain, table.find? name = none := by
  cases h with
  | undefined _ hNone => exact hNone

/-- A name is found in no table around a node if and only if the node is blamed for it. -/
theorem violation_undefined_iff {t : Tree} (hTree : t.WellFormed) {id : NodeId} {node : Node}
    {name : String} {chain : Chain} (hn : t.get? id = some node)
    (hName : node.kind.named? = some name) (hSees : t.Sees id chain) :
    Violation t id ⟨.undefinedName name, node.span.start⟩ ↔ chain.find? name = none := by
  obtain ⟨place, hs, rfl⟩ := hSees
  rw [Chain.find?_eq_none_iff]
  constructor
  · rintro ⟨q, other, hq, ho, hb, -⟩
    rw [hn] at ho
    cases ho
    rw [hs.unique hTree hq]
    exact hb.undefined_inv
  · exact fun hNone => ⟨place, node, hs, hn, .undefined hName hNone, rfl⟩

/-- Names are resolved in the tables of the blocks around them, by the analysis and by the
checks alike.  Every node sees one chain of tables.  The analysis never walks a node with other
tables, whatever a walk would do with them, and the checks never check it with others.  The walk
of a node with a name looks the name up in the tables it is given; what it gets is what the
tables have, and it gets nothing if and only if the script has a fault that says so of this
node. -/
theorem names_resolved_lexically {tokens : List Token} {file : String} {host : Host} {tree : Tree}
    (h : parse tokens file host = .ok tree) (options : Options) :
    (∀ id < tree.size, ∃! chain, tree.Sees id chain) ∧
    (∀ stray, Analysis.fromRoot tree options
      (Analysis.strayingAt tree options stray (Analysis.maxDepth tree)) = analyze tree options) ∧
    (∀ stray, Check.fromRoot tree (Check.strayingAt tree stray (tree.size + 1)) =
      Check.root tree) ∧
    ∃ a ids, analyze tree options = .ok a ∧ ids.Nodup ∧
      List.Forall₂ (Violation tree) ids (check tree) ∧
      ∀ id node name chain, tree.get? id = some node → node.kind.named? = some name →
        tree.Sees id chain →
        (∀ walk, (∃ next : Option NodeId → Analysis Unit,
            Analysis.nodeWith tree options walk chain id = (do
              Analysis.visit id
              let found ← Analysis.resolve walk chain name
              next found)) ∧
          ∀ b found c, Analysis.resolve walk chain name b = .ok (found, c) →
            found = chain.find? name) ∧
        (chain.find? name = none ↔
          (id, ⟨.undefinedName name, node.span.start⟩) ∈ ids.zip (check tree)) := by
  have hTree := parse_wellFormed h
  obtain ⟨a, -, hRun, -⟩ := analyze_walked hTree options
  obtain ⟨ids, hNodup, hMem, hAll⟩ := hTree.check_violations
  refine ⟨fun id hid => hTree.exists_unique_sees hid, Analysis.straying_fromRoot hTree,
    Check.straying_root hTree, a, ids, hRun, hNodup, hAll, ?_⟩
  intro id node name chain hn hName hSees
  refine ⟨fun walk => ⟨Analysis.nodeWith_named hn hName walk chain,
    fun b found c hFound => Analysis.resolve_eq_find? hFound⟩, ?_⟩
  rw [mem_zip_iff_violation hTree hMem hAll, violation_undefined_iff hTree hn hName hSees]

theorem names_resolved_lexically_sub : ∃ tokens tree a, ∃ ids : List NodeId,
    tokenize "f(); sub f \x7b y = x; \x7d let x;" "a" = .ok tokens ∧
    parse tokens "a" Host.empty = .ok tree ∧
    check tree = [⟨.undefinedName "y", ⟨13, "a"⟩⟩] ∧
    tree.get? 1 = some ⟨.target "y" [], ⟨⟨13, "a"⟩, ⟨14, "a"⟩⟩⟩ ∧
    Analysis.fromRoot tree Options.standard (Analysis.strayingAt tree Options.standard
      (fun _ id => throw (Tree.cyclicNode id)) (Analysis.maxDepth tree)) = .ok a ∧
    (∃! chain, tree.Sees 1 chain) ∧
    ∀ chain, tree.Sees 1 chain → (chain.find? "y" = none ↔
      (1, ⟨.undefinedName "y", ⟨13, "a"⟩⟩) ∈ ids.zip (check tree)) := by
  have hRun : (do
      let tokens ← tokenize "f(); sub f \x7b y = x; \x7d let x;" "a"
      let tree ← parse tokens "a" Host.empty
      pure (check tree, tree.get? 1)) = Except.ok ([⟨.undefinedName "y", ⟨13, "a"⟩⟩],
        some ⟨.target "y" [], ⟨⟨13, "a"⟩, ⟨14, "a"⟩⟩⟩) := by
    cbv
  obtain ⟨tokens, hTokens, hRun⟩ := exists_of_bind_eq_ok hRun
  obtain ⟨tree, hTree, hRun⟩ := exists_of_bind_eq_ok hRun
  obtain ⟨hCheck, hNode⟩ := Prod.mk.inj (Except.ok.inj hRun)
  have hSize : 1 < tree.size := Tree.lt_size_of_kind? (Tree.kind?_eq_some_iff.mpr ⟨_, hNode, rfl⟩)
  obtain ⟨hOne, hWalk, -, a, ids, ha, -, -, hNames⟩ :=
    names_resolved_lexically hTree Options.standard
  exact ⟨tokens, tree, a, ids, hTokens, hTree, hCheck, hNode, (hWalk _).trans ha, hOne 1 hSize,
    fun chain hSees => (hNames 1 _ "y" chain hNode rfl hSees).2⟩

end StageScript

import StageScript.Proofs.Parse.Ledger
import StageScript.Parse.Stmt

/-!
# Rules that make nodes

What a rule of the grammar does to the ledger.  A rule that gives a node adds it at the end
of what is held (`Makes`), and a rule that gives several adds them in their order
(`MakesAll`).  A block takes the definitions it is given from the end of the loose ones
(`MakesBlock`).
-/

namespace StageScript.Parse

def At (base : Store) (held stmts loose : List NodeId) (s : Store) : Prop :=
  base.Grows s ∧ Accounted s held stmts loose

def Makes (step : Parse NodeId) : Prop :=
  ∀ base held stmts loose,
    Triple (At base held stmts loose) step fun id => At base (held ++ [id]) stmts loose

def MakesAll (step : Parse (List NodeId)) : Prop :=
  ∀ base held stmts loose,
    Triple (At base held stmts loose) step fun ids => At base (held ++ ids) stmts loose

def Given (s : Store) (decls : List NodeId) : Prop :=
  ∀ id ∈ decls, ∃ d, s.tree.kind? id = some (.definition d) ∧ d.isGiven = true

def IsBlock (s : Store) (decls : List NodeId) (id : NodeId) : Prop :=
  ∃ ids table, s.tree.kind? id = some (.block ids table) ∧ s.tree.given table = decls

/-- The step gives a block that declares the given definitions, and is then held. -/
def MakesBlock (block : List NodeId → Parse NodeId) : Prop :=
  ∀ decls base held stmts loose,
    Triple (fun s => At base held stmts (loose ++ decls) s ∧ Given s decls) (block decls)
      fun id s => At base (held ++ [id]) stmts loose s ∧ IsBlock s decls id

theorem At.rebase {a b s : Store} {held stmts loose : List NodeId} (h : a.Grows b)
    (hs : At b held stmts loose s) : At a held stmts loose s :=
  ⟨h.trans hs.1, hs.2⟩

section Nodes

variable {base : Store} {held stmts loose : List NodeId}

/-- A node is made of what is held last. -/
theorem push_part {k : NodeKind} {all : List NodeId} (span : Span)
    (hd : k.isDefinition = false) (he : k.entries = []) (hAll : all = held ++ k.children) :
    Triple (At base all stmts loose) (push k span) fun id => At base (held ++ [id]) stmts loose := by
  intro p hp
  subst hAll
  exact ⟨hp.1.trans (.push _ (NodeKind.isDefinition_eq_false_iff.mp hd _)),
    hp.2.push_part hd he span⟩

theorem pushFrom_part {k : NodeKind} {all : List NodeId} (start : Position)
    (hd : k.isDefinition = false) (he : k.entries = []) (hAll : all = held ++ k.children) :
    Triple (At base all stmts loose) (pushFrom start k)
      fun id => At base (held ++ [id]) stmts loose :=
  (reads_look _).bind fun span => push_part span hd he hAll

/-- A definition without body is loose. -/
theorem push_loose {d : Definition} (hb : d.body? = none) (hd : d ≠ .result) (span : Span) :
    Triple (At base held stmts loose) (push (.definition d) span) fun id s =>
      At base held stmts (loose ++ [id]) s ∧ s.tree.kind? id = some (.definition d) := by
  intro p hp
  have h : Accounted p.store (held ++ d.body?.toList) stmts loose := by
    simpa [hb] using hp.2
  exact ⟨⟨hp.1.trans (.push _ (by simpa using hd)), h.push_definition (by simp [hb]) span⟩,
    Tree.kind?_push_size _ _⟩

end Nodes

end StageScript.Parse

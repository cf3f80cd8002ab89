import StageScript.Proofs.Twin.Alike

/-!
# Other numbers for the nodes

The same script can be kept under other numbers: `NodeKind.renumber f` is a node that names `f id`
where it named `id`.  Nodes that are alike, for the pairs of numbers of a function, are the same but
for these numbers and for the order of their tables (`NodeKind.Alike.rearranged`).
-/

namespace StageScript

variable (f : NodeId → NodeId)

def NameTable.renumber (t : NameTable) : NameTable := ⟨t.entries.map fun e => (e.1, f e.2)⟩

def Definition.renumber : Definition → Definition
  | sub name body => sub name (f body)
  | entryRoutine name body => entryRoutine name (f body)
  | func name params body => func name (params.map f) (f body)
  | task name params body => task name (params.map f) (f body)
  | d => d

def NodeKind.renumber : NodeKind → NodeKind
  | array elems => array (elems.map f)
  | unary op operand => unary op (f operand)
  | binary op lhs rhs => binary op (f lhs) (f rhs)
  | call name args => call name (args.map f)
  | element base index => element (f base) (f index)
  | range start stop => range (f start) (f stop)
  | slice base bounds => slice (f base) (f bounds)
  | target name indices => target name (indices.map f)
  | assign op lhs rhs => assign op (f lhs) (f rhs)
  | callStmt name args => callStmt name (args.map f)
  | returnValue value => returnValue (f value)
  | succ lhs => succ (f lhs)
  | pred lhs => pred (f lhs)
  | varInit name rhs => varInit name (f rhs)
  | block stmts table => block (stmts.map f) (table.renumber f)
  | localBlock body => localBlock (f body)
  | loop body => loop (f body)
  | times count body => times (f count) (f body)
  | whileLoop cond body => whileLoop (f cond) (f body)
  | ascent bounds body => ascent (f bounds) (f body)
  | descent bounds body => descent (f bounds) (f body)
  | elseIf cond body => elseIf (f cond) (f body)
  | ifElse cond body elseIfs elseBody =>
    ifElse (f cond) (f body) (elseIfs.map f) (elseBody.map f)
  | caseOf values body => caseOf (values.map f) (f body)
  | alternative cond cases others => alternative (f cond) (cases.map f) (others.map f)
  | definition d => definition (d.renumber f)
  | kind => kind

/-- The nodes are the same but for the order of their tables. -/
inductive NodeKind.Rearranged : NodeKind → NodeKind → Prop
  | same (k : NodeKind) : Rearranged k k
  | block (stmts : List NodeId) {t u : NameTable} (h : t.entries.Perm u.entries) :
      Rearranged (block stmts t) (block stmts u)

variable {f} {exact : Prop} {ρ : NodeId → NodeId → Prop} (hρ : ∀ x y, ρ x y → y = f x)

include hρ

theorem eq_map_of_forall₂ {xs ys : List NodeId} (h : xs.Forall₂ ρ ys) : ys = xs.map f := by
  induction h with
  | nil => rfl
  | cons h _ ih => rw [List.map_cons, ih, hρ _ _ h]

theorem eq_map_of_toList {o o' : Option NodeId} (h : o.toList.Forall₂ ρ o'.toList) :
    o' = o.map f := by
  cases o with
  | none =>
    cases o' with
    | none => rfl
    | some y => cases h
  | some x =>
    cases o' with
    | none => cases h
    | some y => rw [Option.map_some, hρ _ _ (List.forall₂_cons.mp h).1]

theorem EntriesAlike.eq_map {es fs : List (String × NodeId)} (h : EntriesAlike ρ es fs) :
    fs = es.map fun e => (e.1, f e.2) := by
  induction h with
  | nil => rfl
  | cons h _ ih => rw [List.map_cons, ih, ← h.1, ← hρ _ _ h.2]

theorem NameTable.Alike.perm_renumber {t u : NameTable} (h : t.Alike exact ρ u) :
    (t.renumber f).entries.Perm u.entries ∧ (exact → u = t.renumber f) := by
  obtain ⟨es, hes, hPerm, hExact⟩ := h
  have hEntries : es = (t.renumber f).entries := hes.eq_map hρ
  rw [hEntries] at hPerm hExact
  exact ⟨hPerm, fun he => by rw [NameTable.mk.injEq]; exact (hExact he).symm⟩

theorem Definition.Alike.eq_renumber {d e : Definition} (h : d.Alike ρ e) : e = d.renumber f := by
  cases h with
  | same h => cases d <;> first | rfl | cases h
  | sub h => rw [hρ _ _ h]; rfl
  | entryRoutine h => rw [hρ _ _ h]; rfl
  | func hp h => rw [hρ _ _ h, eq_map_of_forall₂ hρ hp]; rfl
  | task hp h => rw [hρ _ _ h, eq_map_of_forall₂ hρ hp]; rfl

omit hρ in
theorem NodeKind.renumber_of_plain {k : NodeKind} (hc : k.children = []) (he : k.entries = [])
    (hd : k.isDefinition = false) : k.renumber f = k := by
  cases k with
  | block stmts table =>
    cases table
    simp_all [renumber, children, entries, NameTable.renumber]
  | definition d => cases hd
  | _ => simp_all [renumber, children]

/-- Without a table whose order could differ, the other numbers are all that differs. -/
theorem NodeKind.Alike.eq_renumber {k l : NodeKind} (h : k.Alike exact ρ l)
    (hb : exact ∨ ∀ stmts table, k ≠ .block stmts table) : l = k.renumber f := by
  cases h with
  | same hc he hd => exact (renumber_of_plain hc he hd).symm
  | block hs ht =>
    rcases hb with he | hb
    · rw [eq_map_of_forall₂ hρ hs, (ht.perm_renumber hρ).2 he]
      rfl
    · exact absurd rfl (hb _ _)
  | definition hd =>
    rw [hd.eq_renumber hρ]
    rfl
  | ifElse hl hr hes ho =>
    rw [hρ _ _ hl, hρ _ _ hr, eq_map_of_forall₂ hρ hes, eq_map_of_toList hρ ho]
    rfl
  | alternative hl hes ho =>
    rw [hρ _ _ hl, eq_map_of_forall₂ hρ hes, eq_map_of_toList hρ ho]
    rfl
  | caseOf hvs h =>
    rw [eq_map_of_forall₂ hρ hvs, hρ _ _ h]
    rfl
  | array h | call h | target h | callStmt h =>
    rw [eq_map_of_forall₂ hρ h]
    rfl
  | unary h | returnValue h | succ h | pred h | varInit h | localBlock h | loop h =>
    rw [hρ _ _ h]
    rfl
  | binary hl hr | element hl hr | range hl hr | slice hl hr | assign hl hr | times hl hr
  | whileLoop hl hr | ascent hl hr | descent hl hr | elseIf hl hr =>
    rw [hρ _ _ hl, hρ _ _ hr]
    rfl

theorem NodeKind.Alike.rearranged {k l : NodeKind} (h : k.Alike exact ρ l) :
    (k.renumber f).Rearranged l := by
  by_cases hb : ∃ stmts table, k = .block stmts table
  · obtain ⟨stmts, table, rfl⟩ := hb
    cases h with
    | same hc he hd =>
      rw [renumber_of_plain hc he hd]
      exact .same _
    | block hs ht =>
      rw [eq_map_of_forall₂ hρ hs]
      exact .block _ (ht.perm_renumber hρ).1
  · have hEq : l = k.renumber f :=
      h.eq_renumber hρ (.inr fun stmts table hk => hb ⟨stmts, table, hk⟩)
    rw [hEq]
    exact .same _

end StageScript

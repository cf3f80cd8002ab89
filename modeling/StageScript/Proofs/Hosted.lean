import StageScript.Proofs.Parse.Script
import StageScript.Proofs.Tree.Renumber
import StageScript.Proofs.Twin.Block

/-!
# Scripts among the definitions of a host

What a host provides is declared before the script, in the same block.  It takes the first numbers,
and all nodes of the script move up.  Nothing else about the tree depends on the host, and the
script is refused for a name of the host if it declares it in its root block, and only there.

The parser of the bare script and the parser of the script among the definitions go side by side
(`hostTwin`) through the same tokens.
-/

namespace StageScript

/-! ### Trees with a host -/

namespace Host

/-- The names of the functions and then of the constants. -/
def names (h : Host) : List String :=
  h.functions.map HostFunction.name ++ h.constants.map HostConstant.name

def entries (h : Host) : List (String × NodeId) := h.names.zipIdx

/-- The functions and then the constants, at the start of the file. -/
def nodes (h : Host) (file : String) : List Node :=
  h.functions.map (fun f =>
      ⟨.definition (.hostFunc f.name f.arity f.returns f.pure), .ofOffsets file 0 0⟩) ++
    h.constants.map fun c => ⟨.definition (.hostConst c.name c.ty), .ofOffsets file 0 0⟩

variable (h : Host)

theorem map_name_definitions : h.definitions.map Definition.name = h.names := by
  simp [definitions, names, Function.comp_def, Definition.name]

theorem length_definitions : h.definitions.length = h.names.length := by
  rw [← map_name_definitions, List.length_map]

theorem entries_eq : h.entries = h.definitions.zipIdx.map fun d => (d.1.name, d.2) := by
  rw [entries, ← map_name_definitions, List.zipIdx_map]
  rfl

theorem names_entries : h.entries.map Prod.fst = h.names := List.zipIdx_map_fst 0 h.names

theorem nodes_eq (file : String) :
    h.nodes file = h.definitions.map fun d => ⟨.definition d, ⟨⟨0, file⟩, ⟨0, file⟩⟩⟩ := by
  rw [definitions, List.map_append, List.map_map, List.map_map]
  rfl

theorem length_nodes (file : String) : (h.nodes file).length = h.names.length := by
  rw [nodes_eq, List.length_map, length_definitions]

end Host

def NodeKind.declaring (es : List (String × NodeId)) : NodeKind → NodeKind
  | block stmts table => block stmts ⟨es ++ table.entries⟩
  | kind => kind

namespace Tree

def rootNames (t : Tree) : List String :=
  ((t.kind? t.root).map fun k => k.entries.map Prod.fst).getD []

/-- A node among the definitions of a host: it names higher numbers, and the root declares these
definitions too. -/
def hostedKind (t : Tree) (host : Host) (id : NodeId) (kind : NodeKind) : NodeKind :=
  let moved := kind.renumber (· + host.names.length)
  if id = t.root then moved.declaring host.entries else moved

/-- The tree among the definitions of a host, which come first. -/
def hosted (t : Tree) (host : Host) (file : String) : Tree where
  nodes := (host.nodes file ++
    t.numbered.map fun n => Node.mk (t.hostedKind host n.1 n.2.kind) n.2.span).toArray
  root := t.root + host.names.length

variable {t : Tree} {host : Host} {file : String} {id : NodeId}

theorem hosted_get?_of_lt (h : id < host.names.length) :
    (t.hosted host file).get? id = (host.nodes file)[id]? := by
  have hLength : id < (host.nodes file).length := by rwa [host.length_nodes]
  rw [get?, hosted, List.getElem?_toArray, List.getElem?_append_left hLength]

theorem hosted_get?_add :
    (t.hosted host file).get? (id + host.names.length) =
      (t.get? id).map fun node => ⟨t.hostedKind host id node.kind, node.span⟩ := by
  rw [get?, hosted, List.getElem?_toArray,
    List.getElem?_append_right (by rw [host.length_nodes]; exact Nat.le_add_left _ _),
    host.length_nodes]
  simp [numbered, get?, Function.comp_def]

end Tree

/-! ### Two parsers of one script -/

namespace Parse

/-- The definitions of a host are declared if their names differ. -/
theorem declareAll_eq {ds : List Definition} {span : Span} {p : Parser}
    (h : (p.table.entries.map Prod.fst ++ ds.map Definition.name).Nodup) :
    (ds.forM fun d => do let _ ← declare d span) p = .ok () (p.hosting ds span) := by
  have hRun : ∃ q, (ds.forM fun d => do let _ ← declare d span) p = .ok () q := by
    induction ds generalizing p with
    | nil => exact ⟨p, rfl⟩
    | cons d ds ih =>
      have hFree : d.name ∉ p.table.entries.map Prod.fst := fun hn =>
        List.disjoint_of_nodup_append h hn (List.mem_cons_self ..)
      let r := ({ p with tree := p.tree.push ⟨.definition d, span⟩ } : Parser).declaring
        [(d.name, p.tree.size)]
      have hStep : (do let _ ← declare d span : Parse Unit) p = .ok () r :=
        bind_of_ok (declare_eq hFree) _
      obtain ⟨q, hq⟩ := ih (p := r) (by simpa [r, Parser.declaring] using h)
      exact ⟨q, (bind_of_ok hStep _).trans hq⟩
  obtain ⟨q, hq⟩ := hRun
  rw [hq, declareAll_eq_ok hq]

end Parse

open Parse

/-- The parser of a bare script on the left, and on the right the one of the same script behind the
definitions of a host. -/
def hostTwin (tokens : List Token) (host : Host) : Twin where
  left := tokens.toArray
  right := tokens.toArray
  exact := True
  meets i j := j = i
  near _ _ := False
  rounds _ _ n m := m = n
  fits ρ m n := n = m + host.names.length ∧
    ∀ x y : Nat, ρ x y ↔ x < m ∧ y = x + host.names.length
  leftNames := []
  rightNames := host.entries
  leftOuter := []
  rightOuter := []
  tokens_eq _ := rfl
  pos_eq _ h := h
  names_eq _ := rfl
  not_exact h := h.elim
  ended h := absurd trivial h
  size_iff h := by rw [h]
  token_eq h _ := by rw [h]
  meets_succ h _ := by rw [h]
  ends_of_near _ _ h := h.elim
  not_resumes h := h.elim
  rounds_self h := by rw [h]
  rounds_zero h := by rw [h]
  rounds_succ h _ _ _ := by omega
  fits_push := by
    rintro ρ m n ⟨rfl, hρ⟩
    refine ⟨by omega, fun x y => ?_⟩
    show (ρ x y ∨ x = m ∧ y = m + host.names.length) ↔ _
    rw [hρ]
    omega

theorem hostTwin_bridges (tokens : List Token) (host : Host) (inner : Inner)
    (stop : Parser → Bool) (depth i : Nat) :
    (hostTwin tokens host).Bridges inner stop depth i :=
  fun _ _ _ _ _ _ _ _ hNear => hNear.elim

namespace hostTwin

variable {tokens : List Token} {file : String} {host : Host} {p q r s : Parser}
  {ids ids' : List NodeId}

def behind (tokens : List Token) (file : String) (host : Host) : Parser :=
  (Parser.start tokens file true).hosting host.definitions ⟨⟨0, file⟩, ⟨0, file⟩⟩

theorem behind_table : (behind tokens file host).table = ⟨host.entries⟩ := by
  rw [host.entries_eq]
  rfl

theorem behind_nodes : (behind tokens file host).tree.nodes = (host.nodes file).toArray := by
  simp [behind, Parser.hosting, Parser.start, Tree.empty, host.nodes_eq]

theorem behind_size : (behind tokens file host).tree.size = host.names.length := by
  rw [Tree.size, behind_nodes, List.size_toArray, host.length_nodes]

theorem abreast : (hostTwin tokens host).Abreast none False [] (Parser.start tokens file true)
    (behind tokens file host) where
  left := rfl
  right := rfl
  file := rfl
  grammar := rfl
  nesting := rfl
  meets := rfl
  clear := False.elim
  opens h := absurd trivial h
  nodes := by
    refine ⟨fun _ _ => False, ⟨?_, ?_⟩, ?_, ?_, ?_⟩
    · rw [behind_size]
      exact (Nat.zero_add _).symm
    · exact fun x y => ⟨False.elim, fun h => absurd h.1 (Nat.not_lt_zero x)⟩
    · exact fun x y h => h.elim
    · exact List.forall_mem_nil _
    · have hTable : (behind tokens file host).table = ⟨host.entries ++ []⟩ := by
        rw [behind_table, List.append_nil]
      rw [hTable]
      exact Twin.Chains.base (P := hostTwin tokens host) .nil List.nodup_nil

theorem agree (tokens : List Token) (file : String) (host : Host) :
    (hostTwin tokens host).Agree
      (fun ids ids' => (hostTwin tokens host).Abreast none True [(ids, ids')])
      (stmts (innerOf (Parser.start tokens file true)) (fun _ => false)
        (Parser.start tokens file true).rounds (Parser.start tokens file true))
      (stmts (innerOf (behind tokens file host)) (fun _ => false) (behind tokens file host).rounds
        (behind tokens file host)) := by
  have hInner : (hostTwin tokens host).SimInner (innerOf (Parser.start tokens file true)) :=
    Twin.simInner_of_bridges (fun _ _ _ => hostTwin_bridges _ _ _ _ _ _) maxNesting
  exact Twin.sim_stmts hInner Twin.stopsAlike_never (hostTwin_bridges _ _ _ _ 0 0) _ _ _ _ _
    ⟨abreast, rfl, Nat.zero_le _, rfl⟩

variable (h : (hostTwin tokens host).Abreast none True [(ids, ids')] r s)

include h

/-- The root declares the definitions of the host before its own. -/
theorem root_eq (hr : Onward (Parser.start tokens file true) r) :
    NodeKind.block ids' s.table =
      ((NodeKind.block ids r.table).renumber (· + host.names.length)).declaring
        host.entries := by
  obtain ⟨ρ, ⟨-, hFits⟩, -, hHold, hChains⟩ := h.nodes
  have hρ : ∀ x y, ρ x y → y = x + host.names.length := fun x y hxy => ((hFits x y).mp hxy).2
  have hOuter : r.outer = [] := hr.outer
  obtain ⟨es, fs, hEs, hFs, hAlike⟩ := hChains.base_of_le (by rw [hOuter]; exact Nat.le_refl 0)
  have hTable := (hAlike.perm_renumber hρ).2 trivial
  rw [NameTable.mk.injEq] at hTable
  rw [hEs, hFs, hTable, eq_map_of_forall₂ hρ hHold.list]
  rfl

/-- The trees of the two parsers are the same but for the definitions of the host. -/
theorem closed_eq (hr : Onward (Parser.start tokens file true) r)
    (hs : Onward (behind tokens file host) s) :
    s.closed ids' file = (r.closed ids file).hosted host file := by
  obtain ⟨ρ, ⟨hSize, hFits⟩, hLinked, -, -⟩ := h.nodes
  have hρ : ∀ x y, ρ x y → y = x + host.names.length := fun x y hxy => ((hFits x y).mp hxy).2
  have hRoot : (r.closed ids file).root = r.tree.size := rfl
  have hNodes : ∀ i : Nat, (s.closed ids' file).get? i =
      ((r.closed ids file).hosted host file).get? i := by
    intro i
    rcases Nat.lt_or_ge i host.names.length with hLess | hGe
    · have hi : i < s.tree.size := by omega
      rw [Tree.hosted_get?_of_lt hLess, Parser.closed_get?_of_lt hi]
      have hNode : i < (host.nodes file).length := by rwa [host.length_nodes]
      rw [List.getElem?_eq_getElem hNode]
      refine hs.tree.get? ?_
      rw [Tree.get?, behind_nodes, List.getElem?_toArray, List.getElem?_eq_getElem hNode]
    · obtain ⟨x, rfl⟩ := Nat.exists_eq_add_of_le' hGe
      rw [Tree.hosted_get?_add]
      rcases Nat.lt_trichotomy x r.tree.size with hOld | rfl | hNew
      · obtain ⟨n, m, hn, hm, hAlike, -, hSpan⟩ := hLinked x _ ((hFits x _).mpr ⟨hOld, rfl⟩)
        have hi : x + host.names.length < s.tree.size := by omega
        have hNe : x ≠ (r.closed ids file).root := Nat.ne_of_lt hOld
        rw [Parser.closed_get?_of_lt hi, Parser.closed_get?_of_lt hOld, hn, hm, Option.map_some,
          Tree.hostedKind, if_neg hNe, ← hAlike.eq_renumber hρ (.inl trivial), ← hSpan trivial]
      · rw [← hSize, Parser.closed_get?_size, Parser.closed_get?_size, Option.map_some,
          Tree.hostedKind, if_pos hRoot.symm, ← root_eq h hr, Parser.spanFrom,
          h.previousEnd_eq trivial]
        rfl
      · have hi : s.tree.size < x + host.names.length := by omega
        rw [Parser.closed_get?_of_gt hi, Parser.closed_get?_of_gt hNew, Option.map_none]
  rw [Parser.closed, Tree.hosted, Tree.mk.injEq]
  exact ⟨Array.ext_getElem? hNodes, hSize⟩

end hostTwin

/-! ### What a host changes -/

section Changes

variable {tokens : List Token} {file : String} {host : Host}

theorem NameTable.renumber_names (t : NameTable) (f : NodeId → NodeId) :
    (t.renumber f).entries.map Prod.fst = t.entries.map Prod.fst := by
  rw [NameTable.renumber, List.map_map]
  rfl

theorem Parser.closed_rootNames (p : Parser) (ids : List NodeId) :
    (p.closed ids file).rootNames = p.table.entries.map Prod.fst := by
  have hKind : (p.closed ids file).kind? p.tree.size = some (.block ids p.table) :=
    Tree.kind?_eq_some_iff.mpr ⟨_, Parser.closed_get?_size, rfl⟩
  rw [Tree.rootNames, show (p.closed ids file).root = p.tree.size from rfl, hKind]
  rfl

/-- A script that is parsed among the definitions of a host declares none of their names in its
root block. -/
theorem Tree.hosted_rootNames {t : Tree} (ht : t.WellFormed) (h : (t.hosted host file).WellFormed) :
    ∀ name ∈ t.rootNames, name ∉ host.names := by
  obtain ⟨stmts, table, hRoot⟩ := ht.root_block
  obtain ⟨node, hNode, hKind⟩ := Tree.kind?_eq_some_iff.mp hRoot
  have hHosted : (t.hosted host file).kind? (t.root + host.names.length) =
      some (t.hostedKind host t.root node.kind) := by
    refine Tree.kind?_eq_some_iff.mpr ⟨⟨t.hostedKind host t.root node.kind, node.span⟩, ?_, rfl⟩
    rw [Tree.hosted_get?_add, hNode, Option.map_some]
  have hNodup := (h.fits _ _ hHosted).names_nodup
  rw [Tree.hostedKind, if_pos rfl, hKind] at hNodup
  change ((host.entries ++ (table.renumber _).entries).map Prod.fst).Nodup at hNodup
  rw [List.map_append, Host.names_entries, NameTable.renumber_names] at hNodup
  intro name hName hHost
  rw [Tree.rootNames, hRoot] at hName
  exact List.disjoint_of_nodup_append hNodup hHost hName

variable (hNames : host.names.Nodup)

include hNames

theorem declareHost_eq : (host.definitions.forM fun d => do
    let _ ← declare d ⟨⟨0, file⟩, ⟨0, file⟩⟩) (Parser.start tokens file true) =
      .ok () (hostTwin.behind tokens file host) :=
  declareAll_eq (host.map_name_definitions ▸ hNames)

theorem parse_host_of_ok {t : Tree} (h : parse tokens file Host.empty = .ok t) :
    parse tokens file host = .ok (t.hosted host file) ∨ ∃ name position,
      name ∈ t.rootNames ∧ name ∈ host.names ∧
        parse tokens file host = .error ⟨.alreadyDeclared name, position⟩ := by
  have hAgree := hostTwin.agree tokens file host
  have hHost : _ = Reply.ok () (hostTwin.behind tokens file host) := declareHost_eq hNames
  cases hLeft : stmts (innerOf (Parser.start tokens file true)) (fun _ => false)
      (Parser.start tokens file true).rounds (Parser.start tokens file true) with
  | fail d r =>
    rw [parse_of_fail rfl hLeft] at h
    cases h
  | ok ids r =>
    rw [parse_of_ok rfl hLeft] at h
    cases h
    have hr : Onward (Parser.start tokens file true) r := Runs.related hLeft
    cases hRight : stmts (innerOf (hostTwin.behind tokens file host)) (fun _ => false)
        (hostTwin.behind tokens file host).rounds (hostTwin.behind tokens file host) with
    | ok ids' s =>
      rw [hLeft, hRight] at hAgree
      cases hAgree with
      | ok h =>
        left
        rw [parse_of_ok hHost hRight, hostTwin.closed_eq h hr (Runs.related hRight)]
    | fail e s =>
      rw [hLeft, hRight] at hAgree
      cases hAgree with
      | lost h _ =>
        right
        obtain ⟨name, table, hd, hName, hTable, hMem⟩ := h
        have hOuter : r.outer = [] := hr.outer
        rw [Twin.table?_of_eq (by rw [hOuter]; rfl)] at hTable
        cases hTable
        obtain ⟨cause, position⟩ := e
        cases hd
        refine ⟨name, position, ?_, host.names_entries ▸ hName, parse_of_fail hHost hRight⟩
        rw [Parser.closed_rootNames]
        exact hMem

theorem parse_host_of_error {d : Diagnostic} (h : parse tokens file Host.empty = .error d) :
    parse tokens file host = .error d ∨ ∃ name position s, name ∈ host.names ∧
      parse tokens file host = .error ⟨.alreadyDeclared name, position⟩ ∧
      script host (Parser.start tokens file true) = .fail ⟨.alreadyDeclared name, position⟩ s ∧
      s.outer = [] := by
  have hAgree := hostTwin.agree tokens file host
  have hHost : _ = Reply.ok () (hostTwin.behind tokens file host) := declareHost_eq hNames
  cases hLeft : stmts (innerOf (Parser.start tokens file true)) (fun _ => false)
      (Parser.start tokens file true).rounds (Parser.start tokens file true) with
  | ok ids r =>
    rw [parse_of_ok rfl hLeft] at h
    cases h
  | fail e r =>
    have hBare : parse tokens file Host.empty = .error e := parse_of_fail rfl hLeft
    have hFatal : e.cause.isFatal = false := parse_not_fatal hBare
    rw [hBare] at h
    cases h
    rw [hLeft] at hAgree
    cases hRight : stmts (innerOf (hostTwin.behind tokens file host)) (fun _ => false)
        (hostTwin.behind tokens file host).rounds (hostTwin.behind tokens file host) with
    | ok ids' s =>
      rw [hRight] at hAgree
      cases hAgree with
      | idle hIdle => simp [hostTwin, hFatal] at hIdle
    | fail e s =>
      rw [hRight] at hAgree
      cases hAgree with
      | same => exact .inl (parse_of_fail hHost hRight)
      | clash hClash =>
        obtain ⟨name, hd, hName, hOuter⟩ := hClash
        obtain ⟨cause, position⟩ := e
        cases hd
        exact .inr ⟨name, position, s, host.names_entries ▸ hName, parse_of_fail hHost hRight,
          script_of_fail hHost hRight, hOuter⟩
      | idle hIdle => simp [hostTwin, hFatal] at hIdle

end Changes

/-- A host changes the tree of a script in its numbers only, and refuses what its root block
declares again.  A script that cannot be parsed without the host has the same fault with it, unless
it declares a name of the host before: then the parser stands in no block but the root. -/
theorem parse_hosted (tokens : List Token) (file : String) (host : Host)
    (hNames : host.names.Nodup) :
    (∀ d, parse tokens file Host.empty = .error d →
      parse tokens file host = .error d ∨ ∃ name position s, name ∈ host.names ∧
        parse tokens file host = .error ⟨.alreadyDeclared name, position⟩ ∧
        script host (Parser.start tokens file true) = .fail ⟨.alreadyDeclared name, position⟩ s ∧
        s.outer = []) ∧
    ∀ t, parse tokens file Host.empty = .ok t →
      ((∀ name ∈ t.rootNames, name ∉ host.names) →
        parse tokens file host = .ok (t.hosted host file)) ∧
      ((∃ name ∈ t.rootNames, name ∈ host.names) →
        ∃ name position, name ∈ t.rootNames ∧ name ∈ host.names ∧
          parse tokens file host = .error ⟨.alreadyDeclared name, position⟩) := by
  refine ⟨fun d h => parse_host_of_error hNames h, fun t h => ⟨fun hFree => ?_, fun hTaken => ?_⟩⟩
  · refine (parse_host_of_ok hNames h).resolve_right ?_
    rintro ⟨name, position, hRoot, hHost, -⟩
    exact hFree name hRoot hHost
  · refine (parse_host_of_ok hNames h).resolve_left fun hHosted => ?_
    obtain ⟨name, hRoot, hHost⟩ := hTaken
    exact Tree.hosted_rootNames (parse_wellFormed h) (parse_wellFormed hHosted) name hRoot hHost

/-- A name of the host can be declared again inside a block, and not beside the host's own. -/
theorem parse_hosted_nested : ∃ inside beside t u,
    tokenize "sub f \x7b let pi; \x7d let x;" "a" = .ok inside ∧
    tokenize "sub f \x7b \x7d let pi;" "a" = .ok beside ∧
    parse inside "a" Host.empty = .ok t ∧ parse beside "a" Host.empty = .ok u ∧
    parse inside "a" ⟨[⟨"sin", 1, .real, true⟩], [⟨"pi", .real⟩]⟩ =
      .ok (t.hosted ⟨[⟨"sin", 1, .real, true⟩], [⟨"pi", .real⟩]⟩ "a") ∧
    ∃ name position, name ∈ u.rootNames ∧ name ∈ ["sin", "pi"] ∧
      parse beside "a" ⟨[⟨"sin", 1, .real, true⟩], [⟨"pi", .real⟩]⟩ =
        .error ⟨.alreadyDeclared name, position⟩ := by
  have hInside : (do
      let tokens ← tokenize "sub f \x7b let pi; \x7d let x;" "a"
      let t ← parse tokens "a" Host.empty
      pure t.rootNames) = Except.ok ["f", "x"] := by
    cbv
  have hBeside : (do
      let tokens ← tokenize "sub f \x7b \x7d let pi;" "a"
      let t ← parse tokens "a" Host.empty
      pure t.rootNames) = Except.ok ["f", "pi"] := by
    cbv
  obtain ⟨inside, hTokens, hInside⟩ := exists_of_bind_eq_ok hInside
  obtain ⟨t, ht, hInside⟩ := exists_of_bind_eq_ok hInside
  have hFree : t.rootNames = ["f", "x"] := Except.ok.inj hInside
  obtain ⟨beside, hTokens', hBeside⟩ := exists_of_bind_eq_ok hBeside
  obtain ⟨u, hu, hBeside⟩ := exists_of_bind_eq_ok hBeside
  have hTaken : u.rootNames = ["f", "pi"] := Except.ok.inj hBeside
  refine ⟨inside, beside, t, u, hTokens, hTokens', ht, hu, ?_, ?_⟩
  · refine ((parse_hosted inside "a" ⟨[⟨"sin", 1, .real, true⟩], [⟨"pi", .real⟩]⟩
      (by decide)).2 t ht).1 ?_
    rw [hFree]
    decide
  · refine ((parse_hosted beside "a" ⟨[⟨"sin", 1, .real, true⟩], [⟨"pi", .real⟩]⟩
      (by decide)).2 u hu).2 ?_
    rw [hTaken]
    exact ⟨"pi", by decide, by decide⟩

end StageScript

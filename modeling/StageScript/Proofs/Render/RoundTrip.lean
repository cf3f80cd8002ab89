import StageScript.Proofs.Parse.Script
import StageScript.Proofs.Render.Declare

/-!
# Scripts are read as they are written

A program that is written down and parsed is found again in the tree.  The items of a block are
taken one after the other (`judged_stmts`), a block declares what it is given before its items
(`opens_forM`), and the levels of nesting go down block by block (`exact_blockAt`).  At the root
all levels are left, so that the limit is met exactly.
-/

namespace StageScript

/-! ### Items -/

namespace Stmt

variable {ε δ : Type}

theorem names_map (f : ε → δ) (s : Stmt ε) : (s.map f).names = s.names := by
  cases s <;> simp [map, names]

theorem declares_cons (s : Stmt ε) (body : List (Stmt ε)) :
    declares (s :: body) = s.names ++ declares body :=
  List.flatMap_cons

theorem declares_mapAll (f : ε → δ) (body : List (Stmt ε)) :
    declares (mapAll f body) = declares body := by
  induction body with
  | nil => rfl
  | cons s body ih =>
    rw [mapAll, declares_cons, declares_cons, names_map, ih]

end Stmt

/-- The statements are kept by the nodes `xs`, in their order.  The rules that took them replied
with `ids`, and added `es` to the table. -/
structure AllKept (p : Parser) (body : List (Stmt Term)) (ids xs : List NodeId)
    (es : List (String × NodeId)) (t : Tree) : Prop where
  fresh : ∀ x ∈ xs, p.tree.size ≤ x
  ascending : xs.Pairwise (· < ·)
  items : (ids ++ (es.map Prod.snd).filter t.isCallable).Perm xs
  own : ∀ e ∈ es, t.isOwn e.2 = true
  names : es.map Prod.fst = Stmt.declares body
  reads : t.WellFormed → xs.mapM t.stmt? = some (Stmt.mapAll Term.expr body)

theorem AllKept.nil (p : Parser) (t : Tree) : AllKept p [] [] [] [] t where
  fresh := by simp
  ascending := .nil
  items := .refl _
  own := by simp
  names := rfl
  reads _ := rfl

theorem AllKept.cons {p r : Parser} {s : Stmt Term} {body : List (Stmt Term)}
    {found : Option NodeId} {x : NodeId} {es fs : List (String × NodeId)} {ids xs : List NodeId} {t : Tree}
    (hSize : p.tree.size ≤ r.tree.size) (hLt : x < r.tree.size) (h : Kept p s found x es t)
    (hs : AllKept r body ids xs fs t) :
    AllKept p (s :: body) (found.toList ++ ids) (x :: xs) (es ++ fs) t where
  fresh := List.forall_mem_cons.mpr ⟨h.fresh, fun y hy => hSize.trans (hs.fresh y hy)⟩
  ascending := .cons (fun y hy => Nat.lt_of_lt_of_le hLt (hs.fresh y hy)) hs.ascending
  items := by
    -- each side is in two parts, and only the middle ones change places
    have hPerm := (List.Perm.of_eq h.items).append hs.items
    rw [List.map_append, List.filter_append]
    refine .trans (List.perm_iff_count.mpr fun y => ?_) hPerm
    simp only [List.count_append]
    omega
  own e he := (List.mem_append.mp he).elim (h.own e) (hs.own e)
  names := by rw [List.map_append, h.names, hs.names, Stmt.declares_cons]
  reads ht := by rw [List.mapM_cons, h.reads ht, hs.reads ht]; rfl

namespace Parse

variable {n : Nat} {inner : Inner} {p q : Parser} {rest : List Word}

theorem ne_of_starts {kind other : TokenKind} {form : Form} (h : Form.ofKind? kind = some form)
    (hOther : Form.ofKind? other = none) : kind ≠ other := by
  rintro rfl
  rw [h] at hOther
  cases hOther

theorem notMem_goesOn {kind : TokenKind} {form : Form} (h : Form.ofKind? kind = some form) :
    kind ∉ goesOn := by
  have hNone : ∀ k ∈ goesOn, Form.ofKind? k = none := by decide
  exact fun hk => ne_of_starts h (hNone kind hk) rfl

/-- The statements end in front of the word, and not before. -/
structure StopsAt (stop : Parser → Bool) (last : Word) : Prop where
  separate : last.kind ∉ goesOn
  stops : ∀ {q rest}, q.ahead = last :: rest → (q.hasTokens && !stop q) = false
  goes : ∀ {q w rest form}, q.ahead = w :: rest → Form.ofKind? w.kind = some form →
    (q.hasTokens && !stop q) = true

/-- What comes after a statement does not go on with it. -/
theorem exists_next (body : List (Stmt Term)) {last : Word} (rest : List Word)
    (hLast : last.kind ∉ goesOn) :
    ∃ w ws, (Stmt.phrases body).words ++ last :: rest = w :: ws ∧ w.kind ∉ goesOn := by
  cases body with
  | nil => exact ⟨last, rest, rfl, hLast⟩
  | cons s body =>
    obtain ⟨w, ws, hWords, hw⟩ := s.starts
    refine ⟨w, ws ++ ((Stmt.phrases body).words ++ last :: rest), ?_, notMem_goesOn hw⟩
    simp [Stmt.phrases, hWords]

theorem judged_stmts (h : inner.Exact n) {stop : Parser → Bool} {last : Word}
    (hStop : StopsAt stop last) {body : List (Stmt Term)} (hp : Roomy n p)
    (hNodup : (p.table.entries.map Prod.fst ++ Stmt.declares body).Nodup)
    (hBlocks : ∀ s ∈ body, ∀ b ∈ s.blocks, Stmt.Distinct b.1 b.2)
    {rounds : Nat} (hAhead : p.ahead = (Stmt.phrases body).words ++ last :: rest)
    (hRounds : p.ahead.length < rounds) :
    Judged ((Stmt.phrases body).nesting ≤ n)
      (fun ids r => ∃ xs es, After (p.declaring es) (last :: rest) (AllKept p body ids xs es) r)
      (stmts inner stop rounds p) := by
  induction body generalizing p rounds with
  | nil =>
    obtain ⟨k, rfl⟩ := Nat.exists_eq_succ_of_ne_zero (Nat.ne_zero_of_lt hRounds)
    refine .of_iff (show True ↔ _ by simp [Stmt.phrases]) ?_
    refine judged_look (judged_ite_of_not (by simp [hStop.stops hAhead]) (.pure ⟨[], [], ?_⟩))
    rw [Parser.declaring_nil]
    exact (After.refl hp.proper hAhead).imp fun u _ => .nil p u
  | cons s body ih =>
    obtain ⟨k, rfl⟩ := Nat.exists_eq_succ_of_ne_zero (Nat.ne_zero_of_lt hRounds)
    obtain ⟨hFirst, hBlocks⟩ := List.forall_mem_cons.mp hBlocks
    have hWords : p.ahead = s.phrase.words ++ ((Stmt.phrases body).words ++ last :: rest) := by
      simpa [Stmt.phrases] using hAhead
    obtain ⟨w, ws, hStart, hw⟩ := s.starts
    obtain ⟨next, after, hNext, hSeparate⟩ := exists_next body rest hStop.separate
    rw [Stmt.declares_cons, ← List.append_assoc] at hNodup
    have hFree : ∀ name ∈ s.names, name ∉ p.table.entries.map Prod.fst := fun name hn ht =>
      List.disjoint_of_nodup_append (List.nodup_append.mp hNodup).1 ht hn
    refine .of_iff (show s.phrase.nesting ≤ n ∧ (Stmt.phrases body).nesting ≤ n ∧ True ↔ _ by
      simp [Stmt.phrases]) ?_
    refine judged_look (judged_ite (hStop.goes (hWords.trans (by rw [hStart]; rfl)) hw) ?_)
    refine (judged_stmtWith h hp hFree hFirst hSeparate (hNext ▸ hWords)).seq ?_
    rintro found r ⟨x, es, hr⟩
    have hRoomy : Roomy n r := hr.roomy (hp.declaring es)
    have hTable : r.table.entries.map Prod.fst = p.table.entries.map Prod.fst ++ s.names := by
      rw [hr.table, ← hr.holds.names]
      exact List.map_append
    have hRest := hr.ahead.trans hNext.symm
    have hLess : r.ahead.length < k := Parser.length_lt_of_rounds hWords hRest hRounds (by
      simp only [hStart, List.length_append, List.length_cons]
      omega)
    refine (ih hRoomy (hTable ▸ hNodup) hBlocks hRest hLess).seq ?_
    rintro ids r' ⟨xs, fs, hr'⟩
    refine .pure ⟨x :: xs, es ++ fs, ?_⟩
    -- `x` is older than all of `xs`, since it was there before any of them was made
    have hBoth := (hr.declare fs).trans hr'
    rw [Parser.declaring_declaring] at hBoth
    exact hBoth.imp fun u hu => .cons hr.size_le hr.holds.lt hu.1 hu.2

end Parse

/-! ### What blocks are given -/

/-- The entries have these names, and no item of the block makes their definitions. -/
structure Front (names : List String) (es : List (String × NodeId)) (t : Tree) : Prop where
  names : es.map Prod.fst = names
  given : ∀ e ∈ es, t.isOwn e.2 = false

namespace Parse

variable {t : Tree} {p : Parser}

def Declares (t : Tree) (step : Parse Unit) (name : String) : Prop :=
  ∀ q : Parser, q.Proper → t.Extends q.tree → name ∉ q.table.entries.map Prod.fst →
    ∃ id r, step q = .ok () r ∧
      After (q.declaring [(name, id)]) q.ahead (fun u => u.isOwn id = false) r

theorem declares_given {id : NodeId} {d : Definition} (hk : t.kind? id = some (.definition d))
    (hd : d.isGiven = true) : Declares t (do let _ ← declareExisting id) d.name := by
  intro q hq ht hFree
  obtain ⟨position, hRun⟩ := declareExisting_eq (ht.kind? hk)
  rw [bindName_eq hFree] at hRun
  refine ⟨id, _, bind_of_ok hRun _, ?_⟩
  refine { (After.refl hq rfl).declare [(d.name, id)] with lasts := fun u hu => ?_ }
  rw [Tree.isOwn, hu.kind? (ht.kind? hk)]
  cases d with
  | param _ | loopVar _ | result => rfl
  | _ => cases hd

theorem declares_host {host : Host} {d : Definition} (hd : d ∈ host.definitions) (span : Span) :
    Declares t (do let _ ← declare d span) d.name := by
  intro q hq _ hFree
  refine ⟨q.tree.size, _, bind_of_ok (declare_eq hFree) _, ?_⟩
  refine (((After.refl hq rfl).push _ span).declare _).imp fun u hu => ?_
  rw [Tree.isOwn, hu.2.kind]
  rcases List.mem_append.mp hd with hd | hd
  · obtain ⟨f, -, rfl⟩ := List.mem_map.mp hd
    rfl
  · obtain ⟨c, -, rfl⟩ := List.mem_map.mp hd
    rfl

theorem opens_forM {α : Type} {f : α → Parse Unit} {xs : List α} {names : List String}
    (h : List.Forall₂ (fun x name => Declares t (f x) name) xs names) (hp : p.Proper)
    {rest : List Word} (hAhead : p.ahead = rest) (ht : t.Extends p.tree)
    (hNodup : (p.table.entries.map Prod.fst ++ names).Nodup) :
    ∃ es q, xs.forM f p = .ok () q ∧ After (p.declaring es) rest (Front names es) q := by
  induction h generalizing p with
  | nil =>
    refine ⟨[], p, rfl, ?_⟩
    rw [Parser.declaring_nil]
    exact (After.refl hp hAhead).imp fun u _ => ⟨rfl, by simp⟩
  | @cons x name xs names hx _ ih =>
    have hFree : name ∉ p.table.entries.map Prod.fst := fun hn =>
      List.disjoint_of_nodup_append hNodup hn (List.mem_cons_self ..)
    obtain ⟨id, r, hStep, hr⟩ := hx p hp ht hFree
    have hTable : r.table.entries.map Prod.fst = p.table.entries.map Prod.fst ++ [name] := by
      rw [hr.table]
      exact List.map_append
    have hRest : (r.table.entries.map Prod.fst ++ names).Nodup := by
      rwa [hTable, List.append_assoc]
    obtain ⟨es, q, hRun, hq⟩ := ih hr.proper (hr.ahead.trans hAhead) (ht.trans hr.tree) hRest
    refine ⟨(name, id) :: es, q, (bind_of_ok hStep _).trans hRun, ?_⟩
    have hBoth := (hr.declare es).trans hq
    rw [Parser.declaring_declaring] at hBoth
    exact hBoth.imp fun u hu => ⟨by simp [hu.2.names], List.forall_mem_cons.mpr ⟨hu.1, hu.2.given⟩⟩

end Parse

/-! ### Blocks -/

theorem Tree.isCallable_of_isOwn {t : Tree} {id : NodeId} (h : t.isOwn id = false) :
    t.isCallable id = false := by
  rw [isOwn] at h
  rw [isCallable]
  split <;> simp_all

theorem readsBlock_of_allKept {p : Parser} {t : Tree} {id : NodeId} {ids xs : List NodeId}
    {given : List String} {front es : List (String × NodeId)} {body : List (Stmt Term)}
    (hk : t.kind? id = some (.block ids ⟨front ++ es⟩)) (hFront : Front given front t)
    (h : AllKept p body ids xs es t) : t.ReadsBlock id given body := by
  intro ht
  have hCallable : (front.map Prod.snd).filter t.isCallable = [] := by
    refine List.filter_eq_nil_iff.mpr fun x hx => ?_
    obtain ⟨e, he, rfl⟩ := List.mem_map.mp hx
    simp [Tree.isCallable_of_isOwn (hFront.given e he)]
  have hItems : t.items ids ⟨front ++ es⟩ = xs := by
    refine Tree.items_eq h.ascending ?_
    simpa only [List.map_append, List.filter_append, hCallable, List.nil_append] using h.items
  have hGiven : ((front ++ es).filter fun e => !t.isOwn e.2) = front := by
    rw [List.filter_append, List.filter_eq_self.mpr (by simpa using hFront.given),
      List.filter_eq_nil_iff.mpr (by simpa using h.own), List.append_nil]
  rw [ht.block?_eq hk, Tree.blockOf, hItems, h.reads ht]
  simp [hGiven, hFront.names, h.names, Stmt.declares_mapAll]

def Parser.opened (p : Parser) : Parser :=
  { p with nesting := p.nesting + 1, table := NameTable.empty, outer := p.table :: p.outer }

theorem Roomy.opened {n : Nat} {p : Parser} (h : Roomy (n + 1) p) : Roomy n p.opened := by
  refine ⟨⟨h.proper.grammar, h.proper.ends⟩, ?_⟩
  have hLevels := h.levels
  simp only [Parser.opened]
  omega

theorem After.opened {p q : Parser} {rest : List Word} {Γ : Tree → Prop} (h : After p rest Γ q) :
    After p.opened rest Γ q.opened where
  proper := ⟨h.proper.grammar, h.proper.ends⟩
  ahead := h.ahead
  nesting := congrArg (· + 1) h.nesting
  table := rfl
  outer := by simp only [Parser.opened, h.table, h.outer]
  tree := h.tree
  lasts := h.lasts

namespace Parse

variable {n : Nat} {inner : Inner} {p q : Parser} {rest : List Word} {Γ : Tree → Prop}

theorem judged_close {es : List (String × NodeId)} {ids : List NodeId} {start : Position}
    (hq : After (p.opened.declaring es) (.symbol .closeCurly :: rest) Γ q) :
    Judged True (fun id r => After p rest (fun u => Γ u ∧ u.kind? id = some (.block ids ⟨es⟩)) r)
      ((do
        expectSymbol .closeCurly
        let table ← popScope
        leave
        pushFrom start (.block ids table) : Parse NodeId) q) := by
  refine judged_expectSymbol hq fun r hr => ?_
  have hPop : popScope r = .ok ⟨es⟩ { r with table := p.table, outer := p.outer } := by
    rw [popScope, hr.outer, hr.table]
    rfl
  rw [bind_of_ok hPop]
  have hBack : After p rest Γ
      { r with table := p.table, outer := p.outer, nesting := r.nesting - 1 } :=
    ⟨⟨hr.proper.grammar, hr.proper.ends⟩, hr.ahead, by rw [hr.nesting]; rfl, rfl, rfl, hr.tree,
      hr.lasts⟩
  rw [bind_of_ok (show leave _ = .ok () _ from rfl)]
  exact judged_last hBack rfl fun id u hu hMade => ⟨hu, hMade.kind⟩

theorem StopsAt.block : StopsAt (fun p => p.kind = .symbol .closeCurly) (.symbol .closeCurly) where
  separate := by decide
  stops h := by simp [Parser.kind_of_ahead h]
  goes := by
    intro q w rest form h hw
    have hEof : w.kind ≠ .eof := ne_of_starts hw rfl
    have hClose : w.kind ≠ .symbol .closeCurly := ne_of_starts hw rfl
    simp [Parser.hasTokens_of_ahead h, Parser.kind_of_ahead h, hEof, hClose]

theorem StopsAt.script : StopsAt (fun _ => false) .eof where
  separate := by decide
  stops h := by simp [Parser.hasTokens_of_ahead h]
  goes := by
    intro q w rest form h hw
    have hEof : w.kind ≠ .eof := ne_of_starts hw rfl
    simp [Parser.hasTokens_of_ahead h, hEof]

theorem judged_blockWith (h : inner.Exact n) : BlockExact (n + 1) (blockWith inner) := by
  intro decls given body p rest hBody hp hOffers hAhead
  obtain ⟨hNodup, hBlocks⟩ := hBody
  have hLevels := hp.levels
  refine .of_iff (show (Stmt.phrases body).nesting ≤ n ∧ True ↔ _ by simp) ?_
  refine judged_expect (.refl hp.proper hAhead) rfl fun first q _ hq => ?_
  -- the level is there, so that only the items can go too deep
  have hEnter : enter q = .ok () { q with nesting := q.nesting + 1 } :=
    if_neg (by rw [hq.nesting]; omega)
  rw [bind_of_ok hEnter, bind_of_ok (show pushScope _ = .ok () q.opened from rfl)]
  have hOpened := hq.opened
  have hGiven : List.Forall₂ (fun id name => Declares p.tree (do let _ ← declareExisting id) name)
      decls given := hOffers.imp fun id name ⟨d, hk, hName, hd⟩ => hName ▸ declares_given hk hd
  obtain ⟨front, s, hRun, hs⟩ := opens_forM hGiven hOpened.proper hOpened.ahead hOpened.tree
    (List.nodup_append.mp hNodup).1
  rw [bind_of_ok hRun]
  have hFront := (hOpened.declare front).trans hs
  have hRoomy : Roomy n s := hFront.roomy (hp.opened.declaring front)
  have hTable : s.table.entries.map Prod.fst = given := by
    rw [hFront.table]
    exact hs.holds.names
  refine judged_look ((judged_stmts h .block hRoomy (hTable ▸ hNodup) hBlocks hFront.ahead
    s.length_lt_rounds).seq ?_)
  rintro ids r ⟨xs, es, hr⟩
  have hBoth := (hFront.declare es).trans hr
  rw [Parser.declaring_declaring] at hBoth
  refine (judged_close hBoth).imp fun id r hr => hr.imp fun u hu => ?_
  exact readsBlock_of_allKept hu.2 hu.1.1.2 hu.1.2

/-- Blocks with `levels` levels left are taken if they are nested less deep. -/
theorem exact_blockAt (levels : Nat) : BlockExact levels (blockAt levels) := by
  induction levels with
  | zero =>
    intro decls given body p rest _ hp _ hAhead
    refine judged_expectSymbol (.refl hp.proper hAhead) fun r _ => ?_
    exact ⟨Nat.not_lt_zero _, rfl⟩
  | succ levels ih => exact judged_blockWith ⟨exact_exprAt levels, ih⟩

theorem exact_innerOf (p : Parser) : (innerOf p).Exact (maxNesting - p.nesting) :=
  ⟨exact_exprAt _, exact_blockAt _⟩

/-! ### Scripts -/

theorem judged_script {host : Host} {body : List (Stmt Term)}
    (hBody : Stmt.Distinct (host.definitions.map Definition.name) body) (hp : p.Proper)
    (hNesting : p.nesting = 0) (hTable : p.table = .empty) (hOuter : p.outer = [])
    (hAhead : p.ahead = (Stmt.phrases body).words ++ [.eof]) :
    Judged ((Stmt.phrases body).nesting ≤ maxNesting)
      (fun _ q => q.tree.ReadsBlock q.tree.root (host.definitions.map Definition.name) body)
      (script host p) := by
  obtain ⟨hNodup, hBlocks⟩ := hBody
  refine .of_iff (and_iff_left trivial) (judged_look ?_)
  have hHost : List.Forall₂ (fun d name => Declares p.tree
      (do let _ ← declare d ⟨⟨0, p.file⟩, ⟨0, p.file⟩⟩) name) host.definitions
      (host.definitions.map Definition.name) :=
    List.forall₂_map_right_iff.mpr (List.forall₂_same.mpr fun d hd => declares_host hd _)
  obtain ⟨front, s, hRun, hs⟩ := opens_forM hHost hp hAhead (.refl _)
    (by rw [hTable]; exact (List.nodup_append.mp hNodup).1)
  rw [bind_of_ok hRun]
  have hZero : s.nesting = 0 := hs.nesting.trans hNesting
  have hInner : (innerOf s).Exact maxNesting := by simpa [hZero] using exact_innerOf s
  have hRoomy : Roomy maxNesting s := ⟨hs.proper, by rw [hZero, Nat.zero_add]⟩
  have hNames : s.table.entries.map Prod.fst = host.definitions.map Definition.name := by
    rw [hs.table, ← hs.holds.names, Parser.declaring, hTable]
    rfl
  have hStmts := judged_stmts hInner .script hRoomy (hNames ▸ hNodup) hBlocks hs.ahead
    s.length_lt_rounds
  refine Judged.seq (show Judged _ _ (here (fun inner => do
    stmts inner (fun _ => false) (← look Parser.rounds)) s) from hStmts) ?_
  rintro ids r ⟨xs, es, hr⟩
  have hBoth := (hs.declare es).trans hr
  rw [Parser.declaring_declaring] at hBoth
  have hPop : popScope r = .ok ⟨front ++ es⟩ { r with table := .empty } := by
    rw [popScope, hBoth.outer, hBoth.table, Parser.declaring, hOuter, hTable]
    rfl
  rw [bind_of_ok hPop]
  -- the root is set last, and nothing that was read depends on it
  have hLast := hBoth.push (.block ids ⟨front ++ es⟩) (r.spanFrom ⟨0, p.file⟩)
  obtain ⟨⟨hFront, hItems⟩, hMade⟩ :=
    hLast.lasts { r.tree.push _ with root := r.tree.size } (.refl _)
  exact ⟨trivial, readsBlock_of_allKept hMade.kind hFront hItems⟩

end Parse

/-- The words of a program, with the end of the source. -/
def Stmt.render (body : List (Stmt Term)) : List Word := (phrases body).words ++ [.eof]

theorem Parser.proper_start {tokens : List Token} {file : String} {ws : List Word}
    (h : tokens.map Token.word = ws ++ [.eof]) : (start tokens file true).Proper := by
  obtain ⟨before, last, rfl, -, hLast⟩ := List.map_eq_append_iff.mp h
  obtain ⟨token, rfl, hToken⟩ := List.map_eq_singleton_iff.mp hLast
  exact ⟨rfl, before, token, rfl, congrArg Word.kind hToken⟩

/-- A program that is written down and parsed is found again in the tree, together with the names
of the host, if it is nested within the limit.  If it is not, parsing fails for that reason. -/
theorem parse_render (body : List (Stmt Term)) (host : Host) (file : String) (tokens : List Token)
    (hDistinct : Stmt.Distinct (host.definitions.map Definition.name) body)
    (hTokens : tokens.map Token.word = Stmt.render body) :
    ((Stmt.phrases body).nesting ≤ maxNesting → ∃ tree, parse tokens file host = .ok tree ∧
      tree.program? = some (host.definitions.map Definition.name, Stmt.mapAll Term.expr body)) ∧
    (maxNesting < (Stmt.phrases body).nesting → ∃ d, parse tokens file host = .error d ∧
      d.cause = .nestingTooDeep maxNesting) := by
  have hScript := Parse.judged_script hDistinct (Parser.proper_start hTokens) rfl rfl rfl hTokens
    (p := Parser.start tokens file true)
  cases hRun : Parse.script host (Parser.start tokens file true) with
  | ok a q =>
    rw [hRun] at hScript
    have hParse : parse tokens file host = .ok q.tree := by rw [parse, hRun]
    obtain ⟨hFits, hReads⟩ := hScript
    refine ⟨fun _ => ⟨q.tree, hParse, hReads (parse_wellFormed hParse)⟩, fun hDeep => ?_⟩
    exact absurd hFits (Nat.not_le_of_lt hDeep)
  | fail d q =>
    rw [hRun] at hScript
    have hParse : parse tokens file host = .error d := by rw [parse, hRun]
    obtain ⟨hDeep, hCause⟩ := hScript
    exact ⟨fun hFits => absurd hFits hDeep, fun _ => ⟨d, hParse, hCause⟩⟩

def tower : Nat → List (Stmt Term)
  | 0 => []
  | n + 1 => [.callable true "f" ["x"] (tower n), .call "f" [.ref "x"]]

theorem nesting_tower (n : Nat) : (Stmt.phrases (tower n)).nesting = n := by
  induction n with
  | zero => rfl
  | succ n ih =>
    simp [tower, Stmt.phrases, Stmt.phrase, ih, Phrase.commas, Term.whole, Term.phrase]

theorem distinct_tower (n : Nat) {given : List String} (h : (given ++ ["f"]).Nodup) :
    Stmt.Distinct given (tower n) := by
  induction n generalizing given with
  | zero => exact .block (by simpa [tower, Stmt.declares] using h.of_append_left) (by simp [tower])
  | succ n ih =>
    refine .block (by simpa [tower, Stmt.declares, Stmt.names] using h) ?_
    have hBody : Stmt.Distinct (Stmt.given true ["x"]) (tower n) := ih (by decide)
    simpa [tower, Stmt.blocks] using hBody

/-- The limit is exact. -/
theorem parse_render_tower :
    (∃ tree, parse ((Stmt.render (tower 256)).map Word.token) "" .empty = .ok tree ∧
      tree.program? = some ([], Stmt.mapAll Term.expr (tower 256))) ∧
    ∃ d, parse ((Stmt.render (tower 257)).map Word.token) "" .empty = .error d ∧
      d.cause = .nestingTooDeep 256 := by
  have hWords : ∀ n, ((Stmt.render (tower n)).map Word.token).map Token.word =
      Stmt.render (tower n) := fun n => by simp [Function.comp_def, Word.token, Token.word]
  constructor
  · refine (parse_render (tower 256) .empty "" _ (distinct_tower _ (by decide)) (hWords _)).1 ?_
    rw [nesting_tower]
    exact Nat.le_refl _
  · refine (parse_render (tower 257) .empty "" _ (distinct_tower _ (by decide)) (hWords _)).2 ?_
    rw [nesting_tower]
    exact Nat.lt_succ_self _

end StageScript

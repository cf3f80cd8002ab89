import StageScript.Proofs.Parse.Runs
import StageScript.Proofs.Render.Declare
import StageScript.Proofs.Twin.Alike

/-!
# Two parsers side by side

Two parsers read the same tokens, one through the list of one script, the other through the list of
another.  A `Twin` says where they can be at the same time, and which nodes they
had before.  While they run side by side (`Abreast`), they make nodes that are alike.

They part ways in two cases only.  One is a name that the right parser holds already and the left
one does not: there the right parser fails alone, and the left one has declared the name in the
block that they started in (`Twin.Lost`).  The other is a place between two statements where
different tokens follow (`Twin.near`): there the parsers end their statement alike, and what comes
next is up to who compares them.

`Agree` compares what two steps reply.  A comparison is `exact` if the parsers read the same
list and have to fail alike too; otherwise only a left parser that ends well matters.
-/

namespace StageScript

/-! ### Tokens -/

namespace TokenKind

/-- A statement, or the front of a block, can end with a token of the kind.  A parenthesis can only
end the condition of an alternative: `parens` are the ones that are open there. -/
def ends (parens : Option Nat) : TokenKind → Bool
  | symbol .semicolon => true
  | symbol .openCurly => true
  | symbol .closeCurly => true
  | header => true
  | symbol .closeParen => parens == some 1
  | _ => false

/-- A token of the kind goes on with a statement behind one of its blocks. -/
def resumes : TokenKind → Bool
  | keyword .elseWord => true
  | keyword .caseWord => true
  | keyword .othersWord => true
  | _ => false

def turn : TokenKind → ℤ
  | symbol .openCurly => 1
  | symbol .closeCurly => -1
  | _ => 0

/-- The parentheses of the condition of an alternative that are open behind a token. -/
def parens (before : Option Nat) : TokenKind → Option Nat
  | keyword .alternativeWord => some 0
  | symbol .openParen => before.map (· + 1)
  | symbol .closeParen => if before = some 1 then none else before.map (· - 1)
  | symbol .semicolon => none
  | symbol .openCurly => none
  | symbol .closeCurly => none
  | header => none
  | _ => before

/-- No statement can end with a token of the kind; it leaves these parentheses open. -/
structure Passes (before after : Option Nat) (kind : TokenKind) : Prop where
  ends : kind.ends before = false
  parens : kind.parens before = after

end TokenKind

/-- The token that a parser reads at a position: past the last token, the last one. -/
def tokenAt? (ts : Array Token) (i : Nat) : Option Token := ts[min i (ts.size - 1)]?

/-- What is open between two tokens: blocks, and the parentheses of the condition of an
alternative. -/
structure Open where
  blocks : ℤ
  parens : Option Nat

namespace Open

def start : Open := ⟨0, none⟩

def behind (o : Open) (ts : List Token) : Open :=
  ts.foldl (fun o t => ⟨o.blocks + t.kind.turn, t.kind.parens o.parens⟩) o

end Open

def openAt (ts : Array Token) (i : Nat) : Open := Open.start.behind (ts.toList.take i)

theorem Parser.current_eq (p : Parser) :
    p.current = (tokenAt? p.tokens p.pos).getD (Token.atEnd p.file 0) := rfl

/-! ### Comparisons -/

abbrev Links := List (List NodeId × List NodeId)

def Links.Hold (ρ : NodeId → NodeId → Prop) (links : Links) : Prop :=
  ∀ l ∈ links, l.1.Forall₂ ρ l.2

namespace Links.Hold

variable {ρ : NodeId → NodeId → Prop} {links more : Links} {x y : NodeId} {xs ys : List NodeId}

theorem list (h : Links.Hold ρ ((xs, ys) :: links)) : xs.Forall₂ ρ ys := h _ List.mem_cons_self

theorem one (h : Links.Hold ρ (([x], [y]) :: links)) : ρ x y := (List.forall₂_cons.mp h.list).1

theorem tail {link : List NodeId × List NodeId} (h : Links.Hold ρ (link :: links)) :
    links.Hold ρ :=
  (List.forall_mem_cons.mp h).2

theorem cons (h : xs.Forall₂ ρ ys) (hl : links.Hold ρ) : Links.Hold ρ ((xs, ys) :: links) :=
  List.forall_mem_cons.mpr ⟨h, hl⟩

theorem append (h : Links.Hold ρ (more ++ links)) : more.Hold ρ ∧ links.Hold ρ :=
  List.forall_mem_append.mp h

end Links.Hold

structure Twin where
  left : Array Token
  right : Array Token
  /-- The parsers read the same list, and have to fail alike. -/
  exact : Prop
  /-- Where the parsers can be at the same time. -/
  meets : Nat → Nat → Prop
  /-- Places between statements where the next tokens may differ. -/
  near : Nat → Nat → Prop
  /-- The rounds that loops of the parsers have left at these places. -/
  rounds : Nat → Nat → Nat → Nat → Prop
  /-- Which nodes are related, in trees of these sizes. -/
  fits : (NodeId → NodeId → Prop) → Nat → Nat → Prop
  /-- What was declared before, in the block that the parsers start in. -/
  leftNames : List (String × NodeId)
  rightNames : List (String × NodeId)
  /-- The tables around this block. -/
  leftOuter : Chain
  rightOuter : Chain
  tokens_eq : exact → right = left
  pos_eq : ∀ {i j}, exact → meets i j → j = i
  names_eq : exact → leftNames = []
  not_exact : ∀ {i j}, near i j → ¬ exact
  ended : ¬ exact → ∃ before last, left.toList = before ++ [last] ∧ last.kind = .eof
  size_iff : ∀ {i j}, meets i j → (j < right.size ↔ i < left.size)
  token_eq : ∀ {i j}, meets i j → ¬ near i j → tokenAt? right j = tokenAt? left i
  meets_succ : ∀ {i j}, meets i j → ¬ near i j → meets (i + 1) (j + 1)
  ends_of_near : ∀ {i j}, meets i j → ¬ near i j → near (i + 1) (j + 1) →
    ∃ t, tokenAt? left i = some t ∧ t.kind.ends (openAt left i).parens = true
  not_resumes : ∀ {i j}, near i j →
    (∀ t ∈ tokenAt? left i, t.kind.resumes = false) ∧
      ∀ t ∈ tokenAt? right j, t.kind.resumes = false
  rounds_self : ∀ {i j}, meets i j → rounds i j (left.size - i + 1) (right.size - j + 1)
  rounds_zero : ∀ {i j n m}, rounds i j n m → (n = 0 ↔ m = 0)
  rounds_succ : ∀ {i j i' j' n m}, rounds i j (n + 1) (m + 1) → i < i' → j < j' → meets i' j' →
    rounds i' j' n m
  fits_push : ∀ {ρ m n}, fits ρ m n → fits (fun x y => ρ x y ∨ x = m ∧ y = n) (m + 1) (n + 1)

namespace Twin

/-- The tables of the parsers: alike down to the block they started in, and there alike but for
what was declared before.  The left ones have no name twice. -/
inductive Chains (P : Twin) (ρ : NodeId → NodeId → Prop) : Chain → Chain → Prop
  | base {es fs : List (String × NodeId)} (h : (⟨es⟩ : NameTable).Alike P.exact ρ ⟨fs⟩)
      (hn : ((P.leftNames ++ es).map Prod.fst).Nodup) :
      Chains P ρ (⟨P.leftNames ++ es⟩ :: P.leftOuter) (⟨P.rightNames ++ fs⟩ :: P.rightOuter)
  | inner {t u : NameTable} {c d : Chain} (h : t.Alike P.exact ρ u)
      (hn : (t.entries.map Prod.fst).Nodup) (hc : Chains P ρ c d) : Chains P ρ (t :: c) (u :: d)

/-- The parsers are side by side, with these parentheses of an alternative open, and the nodes of
`links` are related.  If `clear`, they are not at a place where the next tokens may differ. -/
structure Abreast (P : Twin) (σ : Option Nat) (clear : Prop) (links : Links) (p q : Parser) :
    Prop where
  left : p.tokens = P.left
  right : q.tokens = P.right
  file : q.file = p.file
  grammar : q.knowsGrammar = p.knowsGrammar
  nesting : q.nesting = p.nesting
  meets : P.meets p.pos q.pos
  clear : clear → ¬ P.near p.pos q.pos
  opens : ¬ P.exact → openAt P.left p.pos = ⟨p.outer.length, σ⟩
  nodes : ∃ ρ, P.fits ρ p.tree.size q.tree.size ∧ p.tree.Linked P.exact ρ q.tree ∧
    links.Hold ρ ∧ P.Chains ρ (p.table :: p.outer) (q.table :: q.outer)

/-- The table of the block that the parsers started in. -/
def table? (P : Twin) (p : Parser) : Option NameTable :=
  (p.table :: p.outer).reverse[P.leftOuter.length]?

/-- The right parser failed for a name that it held before and that the left one has declared. -/
def Lost (P : Twin) (p : Parser) (d : Diagnostic) : Prop :=
  ∃ name table, d.cause = .alreadyDeclared name ∧ name ∈ P.rightNames.map Prod.fst ∧
    P.table? p = some table ∧ name ∈ (table.entries.drop P.leftNames.length).map Prod.fst

/-- The right parser failed for a name that it held before, in the block that it started in. -/
def Clash (P : Twin) (q : Parser) (d : Diagnostic) : Prop :=
  ∃ name, d.cause = .alreadyDeclared name ∧ name ∈ P.rightNames.map Prod.fst ∧
    q.outer = P.rightOuter

variable {α β γ δ : Type}

inductive Agree (P : Twin) (post : α → β → Parser → Parser → Prop) : Reply α → Reply β → Prop
  | ok {a : α} {b : β} {p q : Parser} (h : post a b p q) : Agree P post (.ok a p) (.ok b q)
  | lost {a : α} {d : Diagnostic} {p q : Parser} (h : P.Lost p d) (hc : P.Clash q d) :
      Agree P post (.ok a p) (.fail d q)
  | same {d : Diagnostic} {p q : Parser} : Agree P post (.fail d p) (.fail d q)
  | clash {d e : Diagnostic} {p q : Parser} (h : P.Clash q e) :
      Agree P post (.fail d p) (.fail e q)
  /-- It does not matter what the right parser does. -/
  | idle {d : Diagnostic} {p : Parser} {r : Reply β} (h : ¬ P.exact ∨ d.cause.isFatal = true) :
      Agree P post (.fail d p) r

/-- From parsers with `pre`, the two steps come to parsers with `post`. -/
def Sim (P : Twin) (pre : Parser → Parser → Prop) (left : Parse α) (right : Parse β)
    (post : α → β → Parser → Parser → Prop) : Prop :=
  ∀ (p q : Parser), pre p q → Agree P post (left p) (right q)

variable {P : Twin} {σ : Option Nat} {clear : Prop} {links more : Links} {p q : Parser}
  {pre : Parser → Parser → Prop} {mid : α → β → Parser → Parser → Prop}
  {post : γ → δ → Parser → Parser → Prop}

/-! ### Names that only the right parser holds -/

theorem table?_of_lt (h : P.leftOuter.length < p.outer.length) :
    P.table? p = p.outer.reverse[P.leftOuter.length]? := by
  rw [table?, List.reverse_cons, List.getElem?_append_left (by simpa using h)]

theorem table?_of_eq (h : p.outer.length = P.leftOuter.length) : P.table? p = some p.table := by
  rw [table?, List.reverse_cons, List.getElem?_append_right (by simp [h])]
  simp [h]

/-- Names are only added to the table of the block that the parsers started in. -/
theorem table?_onward {table : NameTable} (h : P.table? p = some table) (ho : Onward p q) :
    ∃ larger, P.table? q = some larger ∧ table.entries <+: larger.entries := by
  rcases Nat.lt_trichotomy P.leftOuter.length p.outer.length with hLess | hEq | hMore
  · refine ⟨table, ?_, List.prefix_refl _⟩
    rwa [table?_of_lt (by rwa [ho.outer]), ho.outer, ← table?_of_lt hLess]
  · rw [table?_of_eq hEq.symm] at h
    cases h
    exact ⟨q.table, table?_of_eq (by rw [ho.outer, hEq]), ho.table⟩
  · rw [table?, List.getElem?_eq_none (by simpa using hMore)] at h
    cases h

theorem Lost.mono {d : Diagnostic} (h : P.Lost p d) (ho : Onward p q) : P.Lost q d := by
  obtain ⟨name, table, hd, hName, hTable, hMem⟩ := h
  obtain ⟨larger, hLarger, hPrefix⟩ := table?_onward hTable ho
  refine ⟨name, larger, hd, hName, hLarger, ?_⟩
  exact ((hPrefix.drop _).sublist.map Prod.fst).subset hMem

/-! ### Rules -/

theorem Agree.imp {post' : α → β → Parser → Parser → Prop} {r : Reply α} {s : Reply β}
    (h : Agree P mid r s) (hp : ∀ a b p q, mid a b p q → post' a b p q) : Agree P post' r s := by
  cases h with
  | ok h => exact .ok (hp _ _ _ _ h)
  | lost h hc => exact .lost h hc
  | same => exact .same
  | clash h => exact .clash h
  | idle h => exact .idle h

theorem Agree.fail {d e : Diagnostic} (h : P.exact → e = d) :
    Agree P mid (.fail d p) (.fail e q) := by
  by_cases hExact : P.exact
  · rw [h hExact]
    exact .same
  · exact .idle (.inl hExact)

/-- What holds of the replies holds together with how they came about. -/
theorem Agree.self {r : Reply α} {s : Reply β} (h : Agree P mid r s) :
    Agree P (fun a b p q => mid a b p q ∧ r = .ok a p ∧ s = .ok b q) r s := by
  cases h with
  | ok h => exact .ok ⟨h, rfl, rfl⟩
  | lost h hc => exact .lost h hc
  | same => exact .same
  | clash h => exact .clash h
  | idle h => exact .idle h

/-- After a left parser that failed, the right one can do what it wants. -/
theorem Agree.bind_of_fail {left : Parse α} {right : Parse β} {f : α → Parse γ} {g : β → Parse δ}
    {d : Diagnostic} {p' : Parser} (hLeft : left p = .fail d p')
    (h : Agree P mid (left p) (right q)) :
    Agree P post ((left >>= f) p) ((right >>= g) q) := by
  rw [hLeft] at h
  rw [Parse.bind_of_fail hLeft]
  cases hRight : right q with
  | ok b q' =>
    rw [hRight] at h
    cases h with
    | idle h => exact .idle h
  | fail e q' =>
    rw [hRight] at h
    rw [Parse.bind_of_fail hRight]
    cases h with
    | same => exact .same
    | clash h => exact .clash h
    | idle h => exact .idle h

theorem Agree.bind {left : Parse α} {right : Parse β} {f : α → Parse γ} {g : β → Parse δ}
    [hf : ∀ a, Parse.Runs Onward (f a)] (h : Agree P mid (left p) (right q))
    (hn : ∀ a b p' q', mid a b p' q' → Agree P post (f a p') (g b q')) :
    Agree P post ((left >>= f) p) ((right >>= g) q) := by
  cases hLeft : left p with
  | fail d p' => exact h.bind_of_fail hLeft
  | ok a p' =>
    rw [hLeft] at h
    rw [Parse.bind_of_ok hLeft]
    cases hRight : right q with
    | ok b q' =>
      rw [hRight] at h
      rw [Parse.bind_of_ok hRight]
      cases h with
      | ok h => exact hn _ _ _ _ h
    | fail e q' =>
      rw [hRight] at h
      rw [Parse.bind_of_fail hRight]
      cases h with
      | lost h hc =>
        cases hRun : f a p' with
        | ok c p'' => exact .lost (h.mono ((hf a).related hRun)) hc
        | fail d p'' => exact .clash hc

theorem Sim.bind {left : Parse α} {right : Parse β} {f : α → Parse γ} {g : β → Parse δ}
    [∀ a, Parse.Runs Onward (f a)] (h : Sim P pre left right mid)
    (hn : ∀ a b, Sim P (mid a b) (f a) (g b) post) : Sim P pre (left >>= f) (right >>= g) post :=
  fun p q hpq => (h p q hpq).bind fun a b => hn a b

theorem Sim.pure {c : γ} {d : δ} (h : ∀ p q, pre p q → post c d p q) :
    Sim P pre (Pure.pure c) (Pure.pure d) post :=
  fun p q hpq => .ok (h p q hpq)

theorem Sim.map {left : Parse α} {right : Parse β} {f : α → γ} {g : β → δ}
    (h : Sim P pre left right mid) (hp : ∀ a b p q, mid a b p q → post (f a) (g b) p q) :
    Sim P pre (f <$> left) (g <$> right) post := by
  intro p q hpq
  show Agree P post ((left >>= fun a => Pure.pure (f a)) p) ((right >>= fun b => Pure.pure (g b)) q)
  exact (h p q hpq).bind fun a b p' q' hMid => .ok (hp a b p' q' hMid)

theorem Sim.strengthen {left : Parse α} {right : Parse β} {pre' : Parser → Parser → Prop}
    (h : Sim P pre left right mid) (hp : ∀ p q, pre' p q → pre p q) : Sim P pre' left right mid :=
  fun p q hpq => h p q (hp p q hpq)

theorem Sim.pull {φ : Prop} {left : Parse α} {right : Parse β}
    (h : φ → Sim P pre left right mid) : Sim P (fun p q => φ ∧ pre p q) left right mid :=
  fun p q hpq => h hpq.1 p q hpq.2

theorem Sim.knowing {φ : Prop} {left : Parse α} {right : Parse β} (hφ : ∀ p q, pre p q → φ)
    (h : φ → Sim P pre left right mid) : Sim P pre left right mid :=
  fun p q hpq => h (hφ p q hpq) p q hpq

/-- Both parsers look at the same thing. -/
theorem Sim.look {f : Parser → α} {left : α → Parse γ} {right : α → Parse δ}
    (hf : ∀ p q, pre p q → f q = f p)
    (h : ∀ a, Sim P (fun p q => pre p q ∧ f p = a) (left a) (right a) post) :
    Sim P pre (Parse.look f >>= left) (Parse.look f >>= right) post := by
  intro p q hpq
  have hAgree := h (f p) p q ⟨hpq, rfl⟩
  rw [← hf p q hpq] at hAgree
  show Agree P post (left (f p) p) (right (f q) q)
  rw [hf p q hpq] at hAgree ⊢
  exact hAgree

def Past (i j : Nat) (pre : Parser → Parser → Prop) (p q : Parser) : Prop :=
  pre p q ∧ i ≤ p.pos ∧ j ≤ q.pos

theorem Sim.past {left : Parse α} {right : Parse β} [hl : Parse.Runs Onward left]
    [hr : Parse.Runs Onward right] (h : Sim P pre left right mid) (i j : Nat) :
    Sim P (Past i j pre) left right fun a b => Past i j (mid a b) := by
  rintro p q ⟨hpq, hi, hj⟩
  refine (h p q hpq).self.imp fun a b p' q' ⟨hMid, hLeft, hRight⟩ => ?_
  have hp : Onward p p' := hl.related hLeft
  have hq : Onward q q' := hr.related hRight
  exact ⟨hMid, hi.trans hp.pos_le, hj.trans hq.pos_le⟩

/-! ### Parsers that are side by side -/

namespace Abreast

theorem loosen (h : P.Abreast σ clear links p q) : P.Abreast σ False links p q :=
  { h with clear := False.elim }

/-- What is known of the related nodes can be put in other words. -/
theorem relink (h : P.Abreast σ clear links p q) (hl : ∀ ρ, links.Hold ρ → more.Hold ρ) :
    P.Abreast σ clear more p q := by
  obtain ⟨ρ, hFits, hLinked, hHold, hChains⟩ := h.nodes
  exact { h with nodes := ⟨ρ, hFits, hLinked, hl ρ hHold, hChains⟩ }

theorem tail {link : List NodeId × List NodeId} (h : P.Abreast σ clear (link :: links) p q) :
    P.Abreast σ clear links p q :=
  h.relink fun _ hρ => hρ.tail

theorem token_eq (h : P.Abreast σ True links p q) : q.current = p.current := by
  rw [Parser.current_eq, Parser.current_eq, h.left, h.right, h.file,
    P.token_eq h.meets (h.clear trivial)]

theorem kind_eq (h : P.Abreast σ True links p q) : q.kind = p.kind :=
  congrArg Token.kind h.token_eq

theorem start_eq (h : P.Abreast σ True links p q) : q.position = p.position :=
  congrArg (fun token => token.span.start) h.token_eq

theorem current_eq (h : P.Abreast σ clear links p q) (he : P.exact) : q.current = p.current := by
  rw [Parser.current_eq, Parser.current_eq, h.left, h.right, h.file, P.tokens_eq he,
    P.pos_eq he h.meets]

theorem position_eq (h : P.Abreast σ clear links p q) (he : P.exact) : q.position = p.position := by
  rw [Parser.position, h.current_eq he]
  rfl

theorem previousEnd_eq (h : P.Abreast σ clear links p q) (he : P.exact) :
    q.previousEnd = p.previousEnd := by
  rw [Parser.previousEnd, Parser.previousEnd, h.left, h.right, h.file, P.tokens_eq he,
    P.pos_eq he h.meets]

theorem complaint_eq (h : P.Abreast σ clear links p q) (he : P.exact) (reason : String) :
    q.complaint reason = p.complaint reason := by
  rw [Parser.complaint, Parser.complaint, h.current_eq he, h.position_eq he]

end Abreast

end Twin

end StageScript

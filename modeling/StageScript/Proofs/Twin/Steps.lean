import StageScript.Proofs.Twin.Basic

/-!
# Steps side by side

What the steps of parsing do to two parsers that are side by side.  A token that can end a
statement leaves them at a place where the next tokens may differ; after any other token they
still see the same words.
-/

namespace StageScript

theorem TokenKind.turn_of_ends {kind : TokenKind} {σ : Option Nat} (h : kind.ends σ = false) :
    kind.turn = 0 := by
  unfold TokenKind.ends at h
  unfold TokenKind.turn
  split <;> simp_all

/-- The parenthesis that closes another than the first one ends nothing. -/
theorem TokenKind.passes_closeParen {σ : Option Nat} (h : σ ≠ some 0) :
    (TokenKind.symbol .closeParen).Passes (σ.map (· + 1)) σ := by
  cases σ with
  | none => exact ⟨rfl, rfl⟩
  | some n =>
    have hn : n ≠ 0 := fun hn => h (congrArg some hn)
    constructor <;> simp [TokenKind.ends, TokenKind.parens, hn]

/-- If the tokens end with the end of a source, what is open can be told past it too. -/
theorem openAt_succ {ts : Array Token} {before : List Token} {last : Token}
    (hTokens : ts.toList = before ++ [last]) (hLast : last.kind = .eof) (i : Nat) :
    openAt ts (i + 1) = (openAt ts i).behind (tokenAt? ts i).toList := by
  have hSize : ts.size = before.length + 1 := by
    rw [← Array.length_toList, hTokens, List.length_append, List.length_singleton]
  rcases Nat.lt_or_ge i ts.size with hLess | hGe
  · have hGet : tokenAt? ts i = some ts[i] := by
      rw [tokenAt?, Nat.min_eq_left (by omega), Array.getElem?_eq_getElem hLess]
    have hTake : ts.toList.take (i + 1) = ts.toList.take i ++ [ts[i]] := by
      rw [← Array.getElem_toList, List.take_append_getElem]
    rw [openAt, openAt, hTake, hGet, Open.behind, List.foldl_append]
    rfl
  · have hGet : tokenAt? ts i = some last := by
      rw [tokenAt?, Nat.min_eq_right (by omega), hSize, ← Array.getElem?_toList, hTokens,
        Nat.add_sub_cancel, List.getElem?_concat_length]
    rw [openAt, openAt, List.take_of_length_le (by simp; omega),
      List.take_of_length_le (by simp; omega), hGet, Option.toList_some, Open.behind, Open.behind,
      List.foldl_cons, List.foldl_nil, hLast]
    exact congrArg (Open.mk · _) (Int.add_zero _).symm

namespace Twin

open Parse

variable {P : Twin} {σ σ' : Option Nat} {clear : Prop} {links : Links} {p q : Parser}
  {α β γ δ : Type} {post : γ → δ → Parser → Parser → Prop}

namespace Abreast

theorem opens_succ (h : P.Abreast σ clear links p q) (he : ¬ P.exact) :
    openAt P.left (p.pos + 1) = ⟨p.outer.length + p.kind.turn, p.kind.parens σ⟩ := by
  obtain ⟨before, last, hTokens, hLast⟩ := P.ended he
  rw [openAt_succ hTokens hLast, h.opens he, Parser.kind, Parser.current_eq, h.left]
  cases tokenAt? P.left p.pos with
  | none => exact congrArg (Open.mk · σ) (Int.add_zero _).symm
  | some t => rfl

/-- After a token that opens and closes no block, the parsers are side by side again. -/
theorem advance (h : P.Abreast σ True links p q) (hk : p.kind.turn = 0) :
    P.Abreast (p.kind.parens σ) (p.kind.ends σ = false) links p.advanced q.advanced where
  left := h.left
  right := h.right
  file := h.file
  grammar := h.grammar
  nesting := h.nesting
  meets := P.meets_succ h.meets (h.clear trivial)
  clear hEnds hNear := by
    obtain ⟨t, ht, htEnds⟩ := P.ends_of_near h.meets (h.clear trivial) hNear
    rw [h.opens (P.not_exact hNear)] at htEnds
    rw [Parser.kind, Parser.current_eq, h.left, ht, Option.getD_some, htEnds] at hEnds
    cases hEnds
  opens he := by
    rw [show p.advanced.pos = p.pos + 1 from rfl, h.opens_succ he, hk, Int.add_zero]
    rfl
  nodes := h.nodes

/-- After a token that can end nothing, the parsers still see the same words. -/
theorem go (h : P.Abreast σ True links p q) (hk : p.kind.Passes σ σ') :
    P.Abreast σ' True links p.advanced q.advanced := by
  have hNext := h.advance (TokenKind.turn_of_ends hk.ends)
  rw [hk.parens] at hNext
  exact { hNext with clear := fun _ => hNext.clear hk.ends }

theorem stop (h : P.Abreast σ True links p q) (hk : p.kind.turn = 0) :
    P.Abreast (p.kind.parens σ) False links p.advanced q.advanced :=
  (h.advance hk).loosen

end Abreast

/-! ### Reading -/

section Reading

theorem sim_fail {pre : Parser → Parser → Prop} {d e : Diagnostic} (h : P.exact → e = d) :
    Sim P pre (fail d : Parse γ) (fail e : Parse δ) post :=
  fun _ _ _ => .fail h

theorem sim_unexpected (reason : String) :
    Sim P (P.Abreast σ clear links) (unexpected reason : Parse γ) (unexpected reason : Parse δ)
      post :=
  fun _ _ h => .fail fun he => h.complaint_eq he reason

theorem sim_tooDeep :
    Sim P (P.Abreast σ clear links) (tooDeep : Parse γ) (tooDeep : Parse δ) post :=
  fun _ _ h => .fail fun he => by rw [h.position_eq he]

/-- Both parsers take the current token, which can end nothing. -/
theorem Sim.first {f : Token → Parse γ} {g : Token → Parse δ}
    (h : ∀ token, Sim P (P.Abreast σ' True links) (f token) (g token) post) :
    Sim P (fun p q => P.Abreast σ True links p q ∧ p.kind.Passes σ σ') (advance >>= f)
      (advance >>= g) post := by
  intro p q hpq
  show Agree P post (f p.current p.advanced) (g q.current q.advanced)
  rw [hpq.1.token_eq]
  exact h _ _ _ (hpq.1.go hpq.2)

/-- Both parsers take the current token, which can end a statement. -/
theorem Sim.last {f : Token → Parse γ} {g : Token → Parse δ}
    (h : ∀ token, Sim P (P.Abreast σ' False links) (f token) (g token) post) :
    Sim P (fun p q => P.Abreast σ True links p q ∧ p.kind.turn = 0 ∧ p.kind.parens σ = σ')
      (advance >>= f) (advance >>= g) post := by
  rintro p q ⟨hpq, hTurn, rfl⟩
  show Agree P post (f p.current p.advanced) (g q.current q.advanced)
  rw [hpq.token_eq]
  exact h _ _ _ (hpq.stop hTurn)

variable {kind : TokenKind}

theorem sim_expectOr {d e : Diagnostic} (hk : kind.Passes σ σ') (hd : P.exact → e = d) :
    Sim P (P.Abreast σ True links) (expectOr kind d) (expectOr kind e)
      fun a b p q => b = a ∧ P.Abreast σ' True links p q := by
  intro p q h
  rw [expectOr, expectOr, h.kind_eq]
  split
  · exact .ok ⟨h.token_eq, h.go (by rwa [‹p.kind = kind›])⟩
  · exact .fail hd

theorem sim_expect (hk : kind.Passes σ σ') :
    Sim P (P.Abreast σ True links) (expect kind) (expect kind)
      fun a b p q => b = a ∧ P.Abreast σ' True links p q :=
  fun p q h => sim_expectOr hk (fun he => h.complaint_eq he _) p q h

theorem sim_expectName (context : String) :
    Sim P (P.Abreast σ True links) (expectName context) (expectName context)
      fun a b p q => b = a ∧ P.Abreast σ True links p q := by
  intro p q h
  have hName : TokenKind.identifier.Passes σ σ := ⟨rfl, rfl⟩
  exact sim_expectOr hName (fun he => h.complaint_eq he _) p q h

theorem sim_expectSymbol {s : Symbol} (hs : (TokenKind.symbol s).Passes σ σ') :
    Sim P (P.Abreast σ True links) (expectSymbol s) (expectSymbol s)
      fun _ _ => P.Abreast σ' True links :=
  (sim_expect hs).bind fun _ _ => .pure fun _ _ h => h.2

/-- Both parsers take a symbol that can end a statement. -/
theorem sim_lastSymbol {s : Symbol} (hTurn : (TokenKind.symbol s).turn = 0)
    (hParens : (TokenKind.symbol s).parens σ = σ') :
    Sim P (P.Abreast σ True links) (expectSymbol s) (expectSymbol s)
      fun _ _ => P.Abreast σ' False links := by
  have hToken : Sim P (P.Abreast σ True links) (expect (.symbol s)) (expect (.symbol s))
      fun _ _ => P.Abreast σ' False links := by
    intro p q h
    change Agree P _ (expectOr _ _ p) (expectOr _ _ q)
    rw [expectOr, expectOr, h.kind_eq]
    split
    · rename_i hKind
      rw [← hParens, ← hKind]
      exact .ok (h.stop (by rwa [hKind]))
    · exact .fail fun he => h.complaint_eq he _
  exact hToken.bind fun _ _ => .pure fun _ _ h => h

theorem sim_semicolon :
    Sim P (P.Abreast σ True links) (expectSymbol .semicolon) (expectSymbol .semicolon)
      fun _ _ => P.Abreast none False links :=
  sim_lastSymbol rfl rfl

theorem sim_eat (hk : kind.Passes σ σ) :
    Sim P (P.Abreast σ True links) (eat kind) (eat kind)
      fun b c p q => c = b ∧ P.Abreast σ True links p q := by
  intro p q h
  rw [eat, eat, h.kind_eq]
  split
  · exact .ok ⟨rfl, h.go (by rwa [‹p.kind = kind›])⟩
  · exact .ok ⟨rfl, h⟩

/-! ### Choices -/

variable {left other : Parse γ} {right other' : Parse δ}

theorem ifAt_pos (h : p.kind = kind) :
    (atKind kind >>= fun b => if b = true then left else other) p = left p := by
  show (if decide (p.kind = kind) = true then left else other) p = left p
  rw [if_pos (decide_eq_true h)]

theorem ifAt_neg (h : p.kind ≠ kind) :
    (atKind kind >>= fun b => if b = true then left else other) p = other p := by
  show (if decide (p.kind = kind) = true then left else other) p = other p
  rw [if_neg (by simpa using h)]

/-- To take a token if it is of a kind is to look at it first. -/
theorem ifEat_eq : (eat kind >>= fun b => if b = true then left else other) =
    atKind kind >>= fun b => if b = true then advance >>= fun _ => left else other := by
  funext p
  by_cases h : p.kind = kind
  · rw [ifAt_pos h, bind_of_ok (if_pos h)]
    rfl
  · rw [ifAt_neg h, bind_of_ok (if_neg h)]
    rfl

theorem Abreast.ifAt (hpq : P.Abreast σ True links p q)
    (h : p.kind = kind → Agree P post (left p) (right q))
    (ho : Agree P post (other p) (other' q)) :
    Agree P post ((atKind kind >>= fun b => if b = true then left else other) p)
      ((atKind kind >>= fun b => if b = true then right else other') q) := by
  by_cases hKind : p.kind = kind
  · rw [ifAt_pos hKind, ifAt_pos (hpq.kind_eq.trans hKind)]
    exact h hKind
  · rw [ifAt_neg hKind, ifAt_neg (by rwa [hpq.kind_eq])]
    exact ho

theorem Abreast.ifEat (hpq : P.Abreast σ True links p q) (hk : kind.Passes σ σ')
    (h : P.Abreast σ' True links p.advanced q.advanced →
      Agree P post (left p.advanced) (right q.advanced))
    (ho : Agree P post (other p) (other' q)) :
    Agree P post ((eat kind >>= fun b => if b = true then left else other) p)
      ((eat kind >>= fun b => if b = true then right else other') q) := by
  rw [ifEat_eq, ifEat_eq]
  exact hpq.ifAt (fun hKind => h (hpq.go (by rwa [hKind]))) ho

/-- Where the next tokens may differ, none of them goes on with the statement. -/
theorem Abreast.kind_ne_of_near (h : P.Abreast σ clear links p q) (hNear : P.near p.pos q.pos)
    (hk : kind.resumes = true) : p.kind ≠ kind ∧ q.kind ≠ kind := by
  obtain ⟨hLeft, hRight⟩ := P.not_resumes hNear
  have hEnd : ∀ (ts : Array Token) (i : Nat) (file : String),
      (∀ t ∈ tokenAt? ts i, t.kind.resumes = false) →
        ((tokenAt? ts i).getD (Token.atEnd file 0)).kind ≠ kind := by
    rintro ts i file hTokens rfl
    cases hGet : tokenAt? ts i with
    | none =>
      rw [hGet] at hk
      cases hk
    | some t =>
      rw [hGet, Option.getD_some, hTokens t hGet] at hk
      cases hk
  rw [← h.left] at hLeft
  rw [← h.right] at hRight
  exact ⟨hEnd _ _ _ hLeft, hEnd _ _ _ hRight⟩

/-- Both parsers go on with the statement behind one of its blocks, or neither does. -/
theorem Abreast.ifResumes (hpq : P.Abreast σ False links p q) (hk : kind.resumes = true)
    (h : P.Abreast σ True links p q → p.kind = kind → Agree P post (left p) (right q))
    (ho : Agree P post (other p) (other' q)) :
    Agree P post ((atKind kind >>= fun b => if b = true then left else other) p)
      ((atKind kind >>= fun b => if b = true then right else other') q) := by
  by_cases hNear : P.near p.pos q.pos
  · obtain ⟨hLeft, hRight⟩ := hpq.kind_ne_of_near hNear hk
    rw [ifAt_neg hLeft, ifAt_neg hRight]
    exact ho
  · have hClear : P.Abreast σ True links p q := { hpq with clear := fun _ => hNear }
    exact hClear.ifAt (h hClear) ho

theorem Sim.ifAt (h : Sim P (P.Abreast σ True links) left right post)
    (ho : Sim P (P.Abreast σ True links) other other' post) :
    Sim P (P.Abreast σ True links) (atKind kind >>= fun b => if b = true then left else other)
      (atKind kind >>= fun b => if b = true then right else other') post :=
  fun p q hpq => hpq.ifAt (fun _ => h p q hpq) (ho p q hpq)

theorem Sim.ifEat (hk : kind.Passes σ σ') (h : Sim P (P.Abreast σ' True links) left right post)
    (ho : Sim P (P.Abreast σ True links) other other' post) :
    Sim P (P.Abreast σ True links) (eat kind >>= fun b => if b = true then left else other)
      (eat kind >>= fun b => if b = true then right else other') post :=
  fun p q hpq => hpq.ifEat hk (h _ _) (ho p q hpq)

/-- Both parsers take a token that can end a statement, if there is one. -/
theorem Sim.ifEnds (hTurn : kind.turn = 0) (hParens : kind.parens σ = σ')
    (h : Sim P (P.Abreast σ' False links) left right post)
    (ho : Sim P (P.Abreast σ True links) other other' post) :
    Sim P (P.Abreast σ True links) (eat kind >>= fun b => if b = true then left else other)
      (eat kind >>= fun b => if b = true then right else other') post := by
  intro p q hpq
  rw [ifEat_eq, ifEat_eq]
  refine hpq.ifAt (fun hKind => h _ _ ?_) (ho p q hpq)
  rw [← hParens, ← hKind]
  exact hpq.stop (by rwa [hKind])

/-- Both parsers take a token that goes on with the statement, if there is one. -/
theorem Sim.eatResumes (hk : kind.resumes = true) (hp : kind.Passes σ σ')
    (h : Sim P (P.Abreast σ' True links) left right post)
    (ho : Sim P (P.Abreast σ False links) other other' post) :
    Sim P (P.Abreast σ False links) (eat kind >>= fun b => if b = true then left else other)
      (eat kind >>= fun b => if b = true then right else other') post := by
  intro p q hpq
  rw [ifEat_eq, ifEat_eq]
  exact hpq.ifResumes hk (fun hClear hKind => h _ _ (hClear.go (by rwa [hKind]))) (ho p q hpq)

end Reading

/-! ### Nodes -/

section Nodes

theorem Chains.mono {ρ τ : NodeId → NodeId → Prop} {c d : Chain} (h : P.Chains ρ c d)
    (hs : ∀ x y, ρ x y → τ x y) : P.Chains τ c d := by
  induction h with
  | base h hn => exact .base (h.mono hs) hn
  | inner h hn _ ih => exact .inner (h.mono hs) hn ih

variable (new : Links) {k k' : NodeKind} {span span' : Span}

/-- New nodes that are alike are related. -/
theorem Abreast.push {new : Links} (h : P.Abreast σ clear (new ++ links) p q)
    (hk : ∀ ρ, new.Hold ρ → k.Alike P.exact ρ k') (hStart : span'.start = span.start)
    (hSpan : P.exact → span' = span) :
    P.Abreast σ clear (([p.tree.size], [q.tree.size]) :: links)
      { p with tree := p.tree.push ⟨k, span⟩ } { q with tree := q.tree.push ⟨k', span'⟩ } := by
  obtain ⟨ρ, hFits, hLinked, hHold, hChains⟩ := h.nodes
  obtain ⟨hNew, hOld⟩ := hHold.append
  have hMono : ∀ x y, ρ x y → ρ x y ∨ x = p.tree.size ∧ y = q.tree.size := fun x y => .inl
  refine { h with nodes := ⟨fun x y => ρ x y ∨ x = p.tree.size ∧ y = q.tree.size, ?_, ?_, ?_, ?_⟩ }
  · simpa using P.fits_push hFits
  · rintro x y (hxy | ⟨rfl, rfl⟩)
    · obtain ⟨n, m, hn, hm, hAlike, hEq⟩ := hLinked x y hxy
      exact ⟨n, m, (Tree.Extends.push _ _).get? hn, (Tree.Extends.push _ _).get? hm,
        hAlike.mono hMono, hEq⟩
    · refine ⟨⟨k, span⟩, ⟨k', span'⟩, ?_, ?_, (hk ρ hNew).mono hMono, hStart, hSpan⟩ <;>
        simp [Tree.get?, Tree.push, Tree.size]
  · intro l hl
    rcases List.mem_cons.mp hl with rfl | hl
    · exact .cons (.inr ⟨rfl, rfl⟩) .nil
    · exact (hOld l hl).imp hMono
  · exact hChains.mono hMono

theorem sim_push (hk : ∀ ρ, new.Hold ρ → k.Alike P.exact ρ k') :
    Sim P (P.Abreast σ clear (new ++ links)) (push k span) (push k' span)
      fun a b => P.Abreast σ clear (([a], [b]) :: links) :=
  fun _ _ h => .ok (h.push hk rfl fun _ => rfl)

theorem sim_pushFrom {start : Position} (hk : ∀ ρ, new.Hold ρ → k.Alike P.exact ρ k') :
    Sim P (P.Abreast σ clear (new ++ links)) (pushFrom start k) (pushFrom start k')
      fun a b => P.Abreast σ clear (([a], [b]) :: links) := by
  intro p q h
  refine .ok (h.push hk rfl fun he => ?_)
  show (⟨start, q.previousEnd⟩ : Span) = ⟨start, p.previousEnd⟩
  rw [h.previousEnd_eq he]

theorem sim_pushFrom_of_eq {start start' : Position}
    (hk : ∀ ρ, new.Hold ρ → k.Alike P.exact ρ k') (hStart : start' = start) :
    Sim P (P.Abreast σ clear (new ++ links)) (pushFrom start k) (pushFrom start' k')
      fun a b => P.Abreast σ clear (([a], [b]) :: links) :=
  hStart ▸ sim_pushFrom new hk

theorem Abreast.spanBetween_eq {left right left' right' : NodeId}
    (h : P.Abreast σ clear links p q) (hl : ([left], [left']) ∈ links)
    (hr : ([right], [right']) ∈ links) :
    (q.spanBetween left' right').start = (p.spanBetween left right).start ∧
      (P.exact → q.spanBetween left' right' = p.spanBetween left right) := by
  obtain ⟨ρ, -, hLinked, hHold, -⟩ := h.nodes
  obtain ⟨l, l', hGet, hGet', -, hStart, hSpan⟩ :=
    hLinked left left' (List.forall₂_cons.mp (hHold _ hl)).1
  obtain ⟨r, r', hGetR, hGetR', -, -, hSpanR⟩ :=
    hLinked right right' (List.forall₂_cons.mp (hHold _ hr)).1
  simp only [Parser.spanBetween, hGet, hGet', hGetR, hGetR']
  exact ⟨hStart, fun he => by rw [hSpan he, hSpanR he]⟩

/-- Nodes from the start of one part to the end of another. -/
theorem sim_pushBetween {left right left' right' : NodeId}
    (hk : ∀ ρ, new.Hold ρ → k.Alike P.exact ρ k') (hl : ([left], [left']) ∈ new ++ links)
    (hr : ([right], [right']) ∈ new ++ links) :
    Sim P (P.Abreast σ clear (new ++ links))
      (look (·.spanBetween left right) >>= fun span => push k span)
      (look (·.spanBetween left' right') >>= fun span => push k' span)
      fun a b => P.Abreast σ clear (([a], [b]) :: links) :=
  fun _ _ h => .ok (h.push hk (h.spanBetween_eq hl hr).1 (h.spanBetween_eq hl hr).2)

theorem Sim.between {left right left' right' : NodeId} {f : NodeId → Parse γ} {g : NodeId → Parse δ}
    (hk : ∀ ρ, new.Hold ρ → k.Alike P.exact ρ k') (hl : ([left], [left']) ∈ new ++ links)
    (hr : ([right], [right']) ∈ new ++ links)
    (h : ∀ a b, Sim P (P.Abreast σ clear (([a], [b]) :: links)) (f a) (g b) post) :
    Sim P (P.Abreast σ clear (new ++ links))
      (Parse.look (·.spanBetween left right) >>= fun span => push k span >>= f)
      (Parse.look (·.spanBetween left' right') >>= fun span => push k' span >>= g) post :=
  fun _ _ hpq => h _ _ _ _ (hpq.push hk (hpq.spanBetween_eq hl hr).1 (hpq.spanBetween_eq hl hr).2)

/-- Nodes from the start of a part to the end of the last token. -/
theorem sim_pushAfter {left right left' right' : NodeId}
    (hk : ∀ ρ, new.Hold ρ → k.Alike P.exact ρ k') (hl : ([left], [left']) ∈ new ++ links)
    (hr : ([right], [right']) ∈ new ++ links) :
    Sim P (P.Abreast σ clear (new ++ links)) (pushAfter left right k) (pushAfter left' right' k')
      fun a b => P.Abreast σ clear (([a], [b]) :: links) := by
  intro p q h
  show Agree P _ (pushFrom (p.spanBetween left right).start k p)
    (pushFrom (q.spanBetween left' right').start k' q)
  rw [(h.spanBetween_eq hl hr).1]
  exact sim_pushFrom new hk p q h

end Nodes

/-! ### Declarations -/

namespace Chains

variable {ρ : NodeId → NodeId → Prop} {t u : NameTable} {c d : Chain} {name : String}

theorem nodup (h : P.Chains ρ (t :: c) (u :: d)) : (t.entries.map Prod.fst).Nodup := by
  cases h with
  | base _ hn => exact hn
  | inner _ hn _ => exact hn

/-- More entries that are alike. -/
theorem extend {es fs : List (String × NodeId)} (h : P.Chains ρ (t :: c) (u :: d))
    (he : (⟨es⟩ : NameTable).Alike P.exact ρ ⟨fs⟩)
    (hn : ((t.entries ++ es).map Prod.fst).Nodup) :
    P.Chains ρ (⟨t.entries ++ es⟩ :: c) (⟨u.entries ++ fs⟩ :: d) := by
  cases h with
  | base h _ =>
    rw [List.append_assoc] at hn ⊢
    rw [List.append_assoc]
    exact .base (h.append he) hn
  | inner h _ hc => exact .inner (h.append he) hn hc

theorem declare {id id' : NodeId} (h : P.Chains ρ (t :: c) (u :: d)) (hid : ρ id id')
    (hn : name ∉ t.entries.map Prod.fst) :
    P.Chains ρ (⟨t.entries ++ [(name, id)]⟩ :: c) (⟨u.entries ++ [(name, id')]⟩ :: d) := by
  refine h.extend (.entry hid) ?_
  rw [List.map_append]
  exact h.nodup.append (List.nodup_singleton _) (by simpa using hn)

/-- If only the right table has a name, it had it before. -/
theorem mem_right (h : P.Chains ρ (t :: c) (u :: d)) (hu : name ∈ u.entries.map Prod.fst)
    (ht : name ∉ t.entries.map Prod.fst) :
    name ∈ P.rightNames.map Prod.fst ∧ c = P.leftOuter ∧ d = P.rightOuter ∧
      P.leftNames <+: t.entries := by
  cases h with
  | base h _ =>
    rw [List.map_append, List.mem_append, h.mem_names] at hu
    rw [List.map_append, List.mem_append, not_or] at ht
    exact ⟨hu.resolve_right ht.2, rfl, rfl, List.prefix_append _ _⟩
  | inner h _ _ => exact absurd (h.mem_names.mp hu) ht

/-- If only the left table has a name, it had it before. -/
theorem mem_left (h : P.Chains ρ (t :: c) (u :: d)) (ht : name ∈ t.entries.map Prod.fst)
    (hu : name ∉ u.entries.map Prod.fst) : P.leftNames ≠ [] := by
  cases h with
  | base h _ =>
    rintro hNil
    rw [List.map_append, List.mem_append, not_or, h.mem_names] at hu
    rw [hNil, List.nil_append] at ht
    exact hu.2 ht
  | inner h _ _ => exact absurd (h.mem_names.mpr ht) hu

end Chains

section Declarations

variable {name : String} {id id' : NodeId} {position position' : Position}

theorem bindName_of_mem (h : name ∈ p.table.entries.map Prod.fst) :
    bindName name id position p = .fail ⟨.alreadyDeclared name, position⟩ p := by
  have hFound : ¬ p.table.find? name = none := fun hNone => Accounted.find?_eq_none_iff.mp hNone h
  obtain ⟨other, hOther⟩ := Option.ne_none_iff_exists'.mp hFound
  rw [bindName, NameTable.declare?, hOther]

theorem sim_bindName (hPosition : P.exact → position' = position) :
    Sim P (P.Abreast σ clear (([id], [id']) :: links)) (bindName name id position)
      (bindName name id' position') fun a b => P.Abreast σ clear (([a], [b]) :: links) := by
  intro p q h
  obtain ⟨ρ, hFits, hLinked, hHold, hChains⟩ := h.nodes
  have hId : ρ id id' := hHold.one
  by_cases hLeft : name ∈ p.table.entries.map Prod.fst <;>
    by_cases hRight : name ∈ q.table.entries.map Prod.fst
  · rw [bindName_of_mem hLeft, bindName_of_mem hRight]
    exact .fail fun he => by rw [hPosition he]
  · rw [bindName_of_mem hLeft]
    exact .idle (.inl fun he => hChains.mem_left hLeft hRight (P.names_eq he))
  · rw [bindName_eq hLeft, bindName_of_mem hRight]
    obtain ⟨hName, hOuter, hBase, rest, hRest⟩ := hChains.mem_right hRight hLeft
    refine .lost ⟨name, _, rfl, hName, table?_of_eq (congrArg List.length hOuter), ?_⟩
      ⟨name, rfl, hName, hBase⟩
    rw [Parser.declaring, ← hRest, List.append_assoc, List.drop_left]
    simp
  · rw [bindName_eq hLeft, bindName_eq hRight]
    exact .ok { h with nodes := ⟨ρ, hFits, hLinked, hHold, hChains.declare hId hLeft⟩ }

theorem sim_declare (new : Links) {d d' : Definition} {span span' : Span}
    (hd : ∀ ρ, new.Hold ρ → d.Alike ρ d') (hStart : span'.start = span.start)
    (hSpan : P.exact → span' = span) :
    Sim P (P.Abreast σ clear (new ++ links)) (declare d span) (declare d' span')
      fun a b => P.Abreast σ clear (([a], [b]) :: links) := by
  intro p q h
  obtain ⟨ρ, -, -, hHold, -⟩ := h.nodes
  have hName : d'.name = d.name := (hd ρ hHold.append.1).name_eq
  have hPush : Sim P (P.Abreast σ clear (new ++ links)) (push (.definition d) span)
      (push (.definition d') span') fun a b => P.Abreast σ clear (([a], [b]) :: links) :=
    fun _ _ h => .ok (h.push (fun ρ hρ => .definition (hd ρ hρ)) hStart hSpan)
  have hDeclare : Sim P (P.Abreast σ clear (new ++ links)) (declare d span)
      (push (.definition d') span' >>= fun id => bindName d.name id span'.start)
      fun a b => P.Abreast σ clear (([a], [b]) :: links) :=
    hPush.bind fun _ _ => sim_bindName fun _ => hStart
  have hAgree := hDeclare p q h
  rwa [← hName] at hAgree

/-- Definitions from the start of their first token to the end of the last one. -/
theorem sim_declareFrom (new : Links) {d d' : Definition} {start : Position}
    (hd : ∀ ρ, new.Hold ρ → d.Alike ρ d') :
    Sim P (P.Abreast σ clear (new ++ links))
      (look (·.spanFrom start) >>= fun span => declare d span >>= fun _ => pure ())
      (look (·.spanFrom start) >>= fun span => declare d' span >>= fun _ => pure ())
      fun _ _ => P.Abreast σ clear links := by
  intro p q h
  have hStart : (q.spanFrom start).start = (p.spanFrom start).start := rfl
  have hSpan : P.exact → q.spanFrom start = p.spanFrom start := by
    intro he
    rw [Parser.spanFrom, Parser.spanFrom, h.previousEnd_eq he]
  have hDeclare : Sim P (P.Abreast σ clear (new ++ links))
      (declare d (p.spanFrom start) >>= fun _ => pure ())
      (declare d' (q.spanFrom start) >>= fun _ => pure ()) fun _ _ => P.Abreast σ clear links :=
    (sim_declare new hd hStart hSpan).bind fun _ _ => .pure fun _ _ h => h.tail
  exact hDeclare p q h

theorem declareExisting_of_get? {n : Node} {d : Definition} (hn : p.tree.get? id = some n)
    (hd : n.kind = .definition d) :
    declareExisting id p = bindName d.name id n.span.start p := by
  have hNode : p.tree.node id = .ok n := Tree.node_of_get? hn
  have hDef : p.tree.definition id = .ok d :=
    Tree.definition_of_kind? (Tree.kind?_eq_some_iff.mpr ⟨n, hn, hd⟩)
  simp only [declareExisting, Bind.bind, lookup, hNode, hDef]

theorem declareExisting_fatal {n : Node} (hn : p.tree.get? id = some n)
    (hk : n.kind.isDefinition = false) :
    ∃ d, declareExisting id p = .fail d p ∧ d.cause.isFatal = true := by
  have hNode : p.tree.node id = .ok n := Tree.node_of_get? hn
  have hDef : p.tree.definition id = .error (Tree.misplacedNode id n "definition") := by
    simp only [Tree.definition, hNode, Bind.bind, Except.bind]
    split
    · rename_i d hd
      rw [hd] at hk
      cases hk
    · rfl
  refine ⟨Tree.misplacedNode id n "definition", ?_, rfl⟩
  simp only [declareExisting, Bind.bind, lookup, hNode, hDef]

theorem sim_declareExisting : Sim P (P.Abreast σ clear (([id], [id']) :: links))
    (declareExisting id) (declareExisting id') fun _ _ => P.Abreast σ clear links := by
  intro p q h
  obtain ⟨ρ, -, hLinked, hHold, -⟩ := h.nodes
  have hId : ρ id id' := hHold.one
  obtain ⟨n, m, hn, hm, hAlike, hStart, -⟩ := hLinked id id' hId
  by_cases hKind : ∃ d, n.kind = .definition d
  · obtain ⟨d, hd⟩ := hKind
    rw [hd] at hAlike
    obtain ⟨d', hd', hBoth⟩ := hAlike.of_definition
    rw [declareExisting_of_get? hn hd, declareExisting_of_get? hm hd', hBoth.name_eq]
    exact (sim_bindName (fun _ => hStart) p q h).imp fun _ _ _ _ h => h.tail
  · have hOther : n.kind.isDefinition = false :=
      NodeKind.isDefinition_eq_false_iff.mpr fun d hd => hKind ⟨d, hd⟩
    obtain ⟨d, hRun, hFatal⟩ := declareExisting_fatal hn hOther
    rw [hRun]
    exact .idle (.inr hFatal)

/-- A link of lists is one of their heads and one of their tails. -/
theorem Abreast.uncons {x y : NodeId} {xs ys : List NodeId}
    (h : P.Abreast σ clear ((x :: xs, y :: ys) :: links) p q) :
    P.Abreast σ clear (([x], [y]) :: (xs, ys) :: links) p q := by
  refine h.relink fun ρ hρ => ?_
  obtain ⟨hxy, hTail⟩ := List.forall₂_cons.mp hρ.list
  exact .cons (.cons hxy .nil) (.cons hTail hρ.tail)

theorem sim_declareAll (ids : List NodeId) : ∀ ids' : List NodeId,
    Sim P (P.Abreast σ clear ((ids, ids') :: links))
      (ids.forM fun id => do let _ ← declareExisting id)
      (ids'.forM fun id => do let _ ← declareExisting id) fun _ _ => P.Abreast σ clear links := by
  induction ids with
  | nil =>
    intro ids' p q h
    obtain ⟨ρ, -, -, hHold, -⟩ := h.nodes
    cases hHold _ List.mem_cons_self
    exact .ok (h.tail)
  | cons id ids ih =>
    intro ids' p q h
    obtain ⟨ρ, -, -, hHold, -⟩ := h.nodes
    cases hHold _ List.mem_cons_self with
    | @cons _ id' _ ids' =>
      have hOne : Sim P (P.Abreast σ clear (([id], [id']) :: (ids, ids') :: links))
          (declareExisting id >>= fun _ => pure ()) (declareExisting id' >>= fun _ => pure ())
          fun _ _ => P.Abreast σ clear ((ids, ids') :: links) :=
        sim_declareExisting.bind fun _ _ => .pure fun _ _ h => h
      exact (hOne.bind fun _ _ => ih ids') p q h.uncons

end Declarations

/-! ### Nesting -/

theorem nested_of_le {step : Parse α} (h : maxNesting ≤ p.nesting) : nested step p = tooDeep p := by
  have hEnter : enter p = tooDeep p := if_pos h
  simp only [nested, Bind.bind, hEnter]
  rfl

theorem sim_nested {left right : Parse NodeId}
    (h : Sim P (P.Abreast σ True links) left right
      fun a b => P.Abreast σ True (([a], [b]) :: links)) :
    Sim P (P.Abreast σ True links) (nested left) (nested right)
      fun a b => P.Abreast σ True (([a], [b]) :: links) := by
  intro p q hpq
  rcases Nat.lt_or_ge p.nesting maxNesting with hRoom | hFull
  · have hInner : P.Abreast σ True links { p with nesting := p.nesting + 1 }
        { q with nesting := q.nesting + 1 } :=
      { hpq with nesting := congrArg (· + 1) hpq.nesting }
    have hRoom' : q.nesting < maxNesting := by rwa [hpq.nesting]
    have hAgree := h _ _ hInner
    cases hLeft : left { p with nesting := p.nesting + 1 } with
    | ok a p' =>
      rw [hLeft] at hAgree
      rw [nested_of_ok hRoom hLeft]
      cases hRight : right { q with nesting := q.nesting + 1 } with
      | ok b q' =>
        rw [hRight] at hAgree
        rw [nested_of_ok hRoom' hRight]
        cases hAgree with
        | ok h => exact .ok { h with nesting := congrArg (· - 1) h.nesting }
      | fail e q' =>
        rw [hRight] at hAgree
        rw [nested_of_fail hRoom' hRight]
        cases hAgree with
        | lost h hc => exact .lost h hc
    | fail d p' =>
      rw [hLeft] at hAgree
      rw [nested_of_fail hRoom hLeft]
      cases hRight : right { q with nesting := q.nesting + 1 } with
      | ok b q' =>
        rw [hRight] at hAgree
        cases hAgree with
        | idle h => exact .idle h
      | fail e q' =>
        rw [hRight] at hAgree
        rw [nested_of_fail hRoom' hRight]
        cases hAgree with
        | same => exact .same
        | clash h => exact .clash h
        | idle h => exact .idle h
  · rw [nested_of_le hFull, nested_of_le (by rwa [hpq.nesting])]
    exact sim_tooDeep p q hpq

end Twin

end StageScript

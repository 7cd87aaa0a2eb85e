import Lox.Proofs.Program.Shape
import Lox.Proofs.Program.Varies

/-!
# Parenthesised form is unambiguous

If the nests of two trees are alike and all their words are readable, the trees are the same but for
the lines of their tokens (`Expr.varies_of_alike`, `Stmt.varies_of_alike`): the shapes agree, and so
do the parts, one by one.
-/

namespace Lox

open Nest

/-! ### Tokens -/

section

variable {t t' : Token}

theorem Word.IsReadable.lines_name (h : (Word.name t).IsReadable) (h' : (Word.name t').IsReadable)
    (hl : t.lexeme = t'.lexeme) : Variation.lines.token t t' :=
  Token.lines_of_lexeme_eq (by rw [h.spelled.1]; rfl) (by rw [h'.spelled.1]; rfl) h.spelled.2
    h'.spelled.2 hl

theorem Word.IsReadable.lines_reference (h : (Word.reference t).IsReadable)
    (h' : (Word.reference t').IsReadable) (hl : t.lexeme = t'.lexeme) :
    Variation.lines.token t t' := by
  have hnamed : ∀ {t : Token}, (Word.reference t).IsReadable → t.kind.isNamed = true := by
    intro t h
    obtain hkind | hkind := h.spelled.1 <;> rw [hkind] <;> rfl
  exact Token.lines_of_lexeme_eq (hnamed h) (hnamed h') h.spelled.2 h'.spelled.2 hl

theorem Word.IsReadable.lines_symbol {m : Mark} (h : (Word.symbol m t).IsReadable)
    (h' : (Word.symbol m t').IsReadable) (hl : t.lexeme = t'.lexeme) :
    Variation.lines.token t t' := by
  have hnamed : ∀ {t : Token}, (Word.symbol m t).IsReadable → t.kind.isNamed = true := by
    intro t h
    obtain ⟨x, -, hkind, -⟩ := h.exists_spelling
    rw [hkind]
    rfl
  exact Token.lines_of_lexeme_eq (hnamed h) (hnamed h') h.spelled.2 h'.spelled.2 hl

/-- All opening parentheses are the same but for their lines. -/
theorem Word.IsReadable.lines_call (h : (Word.call t).IsReadable) (h' : (Word.call t').IsReadable) :
    Variation.lines.token t t' := by
  have hlexeme : ∀ {t : Token}, (Word.call t).IsReadable →
      t.kind.isNamed = true ∧ t.lexeme = Symbol.leftParen.spelling := by
    intro t h
    obtain ⟨hkind, hspelled⟩ := h.spelled
    rw [Token.IsSpelled, hkind] at hspelled
    exact ⟨by rw [hkind]; rfl, hspelled⟩
  exact Token.lines_of_lexeme_eq (hlexeme h).1 (hlexeme h').1 h.spelled.2 h'.spelled.2
    ((hlexeme h).2.trans (hlexeme h').2.symm)

end

theorem lines_of_match_names : {ts ts' : List Token} → Every Word.IsReadable (ts.map Token.nest) →
    Every Word.IsReadable (ts'.map Token.nest) →
    Match Word.text (ts.map Token.nest) (ts'.map Token.nest) →
    List.Forall₂ Variation.lines.token ts ts'
  | [], [], _, _, _ => .nil
  | _ :: _, _ :: _, h, h', hm =>
    .cons (Word.IsReadable.lines_name h.1 h'.1 hm.1) (lines_of_match_names h.2 h'.2 hm.2)

/-! ### Parts that are absent -/

theorem Expr.not_alike_absent {e : Expr} (he : e.nest.IsReadable) :
    ¬ e.nest.Alike Word.text .absent := by
  intro h
  cases e with
  | literal value => exact Literal.form_ne_mark he h
  | name t => exact Word.IsReadable.plain (w := .reference t) he h
  | lambda routine => cases routine; cases h
  | _ => cases h

theorem Stmt.not_alike_absent (s : Stmt) : ¬ s.nest.Alike Word.text .absent := by
  intro h
  cases s with
  | declare t initial => cases initial <;> cases h
  | function d => cases d; cases h
  | branch condition whenTrue whenFalse => cases whenFalse <;> cases h
  | jump keyword value => cases value <;> cases h
  | _ => cases h

/-! ### The members of a class -/

/-- Two lists are each put together from entries with a property and entries without it. If they
agree one by one in a relation that keeps the property, so do the parts. -/
theorem forall₂_of_append {α : Type} {R : α → α → Prop} {p : α → Bool}
    (hR : ∀ a b, R a b → p a = p b) {bs bs' : List α} (hbs : ∀ b ∈ bs, p b = false)
    (hbs' : ∀ b ∈ bs', p b = false) : {as as' : List α} → (∀ a ∈ as, p a = true) →
    (∀ a ∈ as', p a = true) → List.Forall₂ R (as ++ bs) (as' ++ bs') →
    List.Forall₂ R as as' ∧ List.Forall₂ R bs bs'
  | [], [], _, _, h => ⟨.nil, h⟩
  | [], a' :: as', _, has', h => by
    cases h with
    | @cons b _ bs _ hfirst _ =>
      have hb := hR _ _ hfirst
      rw [hbs b List.mem_cons_self, has' a' List.mem_cons_self] at hb
      cases hb
  | a :: as, [], has, _, h => by
    cases h with
    | @cons _ b' _ bs' hfirst _ =>
      have hb := hR _ _ hfirst
      rw [hbs' b' List.mem_cons_self, has a List.mem_cons_self] at hb
      cases hb
  | a :: as, a' :: as', has, has', h => by
    cases h with
    | cons hfirst hrest =>
      have hparts := forall₂_of_append hR hbs hbs' (fun a ha => has a (List.mem_cons_of_mem _ ha))
        (fun a ha => has' a (List.mem_cons_of_mem _ ha)) hrest
      exact ⟨.cons hfirst hparts.1, hparts.2⟩

/-- The methods of the objects of a class are told from those of the class itself. -/
theorem Definition.match_of_append {ds es ds' es' : List Definition}
    (h : Match Word.text (Definition.nests ds ++ Definition.classNests es)
      (Definition.nests ds' ++ Definition.classNests es')) :
    Match Word.text (Definition.nests ds) (Definition.nests ds') ∧
      Match Word.text (Definition.classNests es) (Definition.classNests es') := by
  have hmethod : ∀ ds : List Definition, ∀ n ∈ Definition.nests ds,
      decide (n.shape = .function) = true := by
    intro ds
    rw [Definition.nests_eq_map]
    exact List.forall_mem_map.mpr fun d _ => decide_eq_true d.shape_nest
  have hclass : ∀ es : List Definition, ∀ n ∈ Definition.classNests es,
      decide (n.shape = .function) = false := by
    intro es
    rw [Definition.classNests_eq_map]
    exact List.forall_mem_map.mpr fun d _ => rfl
  rw [match_iff, match_iff]
  exact forall₂_of_append (fun n n' hn => by rw [hn.shape_eq]) (hclass es) (hclass es')
    (hmethod ds) (hmethod ds') (match_iff.mp h)

/-! ### Trees -/

mutual

/-- **Expressions that are written alike are the same** but for the lines of their tokens. -/
theorem Expr.varies_of_alike (e e' : Expr) (he : e.nest.IsReadable) (he' : e'.nest.IsReadable)
    (h : e.nest.Alike Word.text e'.nest) : e.Varies .lines e' := by
  have hshape := Expr.shape_eq he he' h
  cases e with
  | literal value =>
    cases e' with
    | literal value' =>
      rw [Literal.eq_of_form_eq he he' h]
      exact .literal value'
    | name t' => exact absurd h (Literal.form_ne_lexeme he he')
    | _ => cases hshape
  | name t =>
    cases e' with
    | literal value' => exact absurd h.symm (Literal.form_ne_lexeme he' he)
    | name t' => exact .name (Word.IsReadable.lines_reference he he' h)
    | _ => cases hshape
  | assign t value =>
    cases e' with
    | assign t' value' =>
      obtain ⟨-, ht, hvalue, -⟩ := he
      obtain ⟨-, ht', hvalue', -⟩ := he'
      obtain ⟨-, hname, h, -⟩ := h
      exact .assign (ht.lines_name ht' hname) (value.varies_of_alike value' hvalue hvalue' h)
    | _ => cases hshape
  | get object t =>
    cases e' with
    | get object' t' =>
      obtain ⟨-, hobject, ht, -⟩ := he
      obtain ⟨-, hobject', ht', -⟩ := he'
      obtain ⟨-, h, hname, -⟩ := h
      exact .get (object.varies_of_alike object' hobject hobject' h) (ht.lines_name ht' hname)
    | _ => cases hshape
  | set object t value =>
    cases e' with
    | set object' t' value' =>
      obtain ⟨-, ⟨-, hobject, ht, -⟩, hvalue, -⟩ := he
      obtain ⟨-, ⟨-, hobject', ht', -⟩, hvalue', -⟩ := he'
      obtain ⟨-, ⟨-, hmember, hname, -⟩, h, -⟩ := h
      exact .set (object.varies_of_alike object' hobject hobject' hmember) (ht.lines_name ht' hname)
        (value.varies_of_alike value' hvalue hvalue' h)
    | _ => cases hshape
  | conditional x y z =>
    cases e' with
    | conditional x' y' z' =>
      obtain ⟨-, hx, hy, hz, -⟩ := he
      obtain ⟨-, hx', hy', hz', -⟩ := he'
      obtain ⟨-, hxx, hyy, hzz, -⟩ := h
      exact .conditional (x.varies_of_alike x' hx hx' hxx) (y.varies_of_alike y' hy hy' hyy)
        (z.varies_of_alike z' hz hz' hzz)
    | _ => cases hshape
  | logical x op y =>
    cases e' with
    | logical x' op' y' =>
      obtain ⟨hop, hx, hy, -⟩ := he
      obtain ⟨hop', hx', hy', -⟩ := he'
      obtain ⟨hops, hxx, hyy, -⟩ := h
      exact .logical (x.varies_of_alike x' hx hx' hxx) (hop.lines_symbol hop' hops)
        (y.varies_of_alike y' hy hy' hyy)
    | _ => cases hshape
  | binary x op y =>
    cases e' with
    | binary x' op' y' =>
      obtain ⟨hop, hx, hy, -⟩ := he
      obtain ⟨hop', hx', hy', -⟩ := he'
      obtain ⟨hops, hxx, hyy, -⟩ := h
      exact .binary (x.varies_of_alike x' hx hx' hxx) (hop.lines_symbol hop' hops)
        (y.varies_of_alike y' hy hy' hyy)
    | _ => cases hshape
  | unary op x =>
    cases e' with
    | unary op' x' =>
      obtain ⟨hop, hx, -⟩ := he
      obtain ⟨hop', hx', -⟩ := he'
      obtain ⟨hops, hxx, -⟩ := h
      exact .unary (hop.lines_symbol hop' hops) (x.varies_of_alike x' hx hx' hxx)
    | _ => cases hshape
  | call callee paren arguments =>
    cases e' with
    | call callee' paren' arguments' =>
      obtain ⟨hparen, hcallee, harguments⟩ := he
      obtain ⟨hparen', hcallee', harguments'⟩ := he'
      obtain ⟨-, hc, ha⟩ := h
      exact .call (callee.varies_of_alike callee' hcallee hcallee' hc) (hparen.lines_call hparen')
        (Expr.forall₂_varies_of_match arguments arguments' harguments harguments' ha)
    | _ => cases hshape
  | lambda r =>
    cases e' with
    | lambda r' => exact .lambda (r.varies_of_match r' he.2 he'.2 h.2)
    | _ => cases hshape
termination_by structural e

theorem Expr.forall₂_varies_of_match (es es' : List Expr)
    (hes : Every Word.IsReadable (Expr.nests es)) (hes' : Every Word.IsReadable (Expr.nests es'))
    (h : Match Word.text (Expr.nests es) (Expr.nests es')) :
    List.Forall₂ (Expr.Varies .lines) es es' := by
  cases es with
  | nil =>
    cases es' with
    | nil => exact .nil
    | cons => cases h
  | cons e es =>
    cases es' with
    | nil => cases h
    | cons e' es' =>
      exact .cons (e.varies_of_alike e' hes.1 hes'.1 h.1)
        (Expr.forall₂_varies_of_match es es' hes.2 hes'.2 h.2)
termination_by structural es

theorem Expr.rel_varies_of_alike (e e' : Option Expr) (he : (Expr.optionNest e).IsReadable)
    (he' : (Expr.optionNest e').IsReadable)
    (h : (Expr.optionNest e).Alike Word.text (Expr.optionNest e')) :
    Option.Rel (Expr.Varies .lines) e e' := by
  cases e with
  | none =>
    cases e' with
    | none => exact .none
    | some e' => exact absurd (Nest.Alike.symm h) (Expr.not_alike_absent he')
  | some e =>
    cases e' with
    | none => exact absurd h (Expr.not_alike_absent he)
    | some e' => exact .some (e.varies_of_alike e' he he' h)
termination_by structural e

/-- **Statements that are written alike are the same** but for the lines of their tokens. -/
theorem Stmt.varies_of_alike (s s' : Stmt) (hs : s.nest.IsReadable) (hs' : s'.nest.IsReadable)
    (h : s.nest.Alike Word.text s'.nest) : s.Varies .lines s' := by
  have hshape := Stmt.shape_eq hs hs' h
  cases s with
  | block body =>
    cases s' with
    | block body' => exact .block (Stmt.forall₂_varies_of_match body body' hs.2 hs'.2 h.2)
    | _ => cases hshape
  | declare t initial =>
    cases s' with
    | declare t' initial' =>
      cases initial with
      | none =>
        cases initial' with
        | none => exact .declare (hs.2.1.lines_name hs'.2.1 h.2.1) .none
        | some e' => cases h.2.2
      | some e =>
        cases initial' with
        | none => cases h.2.2
        | some e' =>
          obtain ⟨-, ht, he, -⟩ := hs
          obtain ⟨-, ht', he', -⟩ := hs'
          obtain ⟨-, hname, hee, -⟩ := h
          exact .declare (ht.lines_name ht' hname) (.some (e.varies_of_alike e' he he' hee))
    | _ => cases hshape
  | function d =>
    cases s' with
    | function d' => exact .function (d.varies_of_alike d' hs hs' h)
    | _ => cases hshape
  | classDef t methods classMethods =>
    cases s' with
    | classDef t' methods' classMethods' =>
      obtain ⟨-, ht, hmembers⟩ := hs
      obtain ⟨-, ht', hmembers'⟩ := hs'
      obtain ⟨-, hname, hmm⟩ := h
      obtain ⟨hm, hc⟩ := every_append.mp hmembers
      obtain ⟨hm', hc'⟩ := every_append.mp hmembers'
      obtain ⟨hmatch, hclass⟩ := Definition.match_of_append hmm
      exact .classDef (ht.lines_name ht' hname)
        (Definition.forall₂_varies_of_match methods methods' hm hm' hmatch)
        (Definition.forall₂_varies_of_class classMethods classMethods' hc hc' hclass)
    | _ => cases hshape
  | expression e =>
    cases s' with
    | expression e' => exact .expression (e.varies_of_alike e' hs.2.1 hs'.2.1 h.2.1)
    | _ => cases hshape
  | print e =>
    cases s' with
    | print e' => exact .print (e.varies_of_alike e' hs.2.1 hs'.2.1 h.2.1)
    | _ => cases hshape
  | branch e whenTrue whenFalse =>
    cases s' with
    | branch e' whenTrue' whenFalse' =>
      have he := e.varies_of_alike e'
      have htrue := whenTrue.varies_of_alike whenTrue'
      cases whenFalse with
      | none =>
        cases whenFalse' with
        | none =>
          exact .branch (he hs.2.1 hs'.2.1 h.2.1) (htrue hs.2.2.1 hs'.2.2.1 h.2.2.1) .none
        | some z' => cases h.2.2.2
      | some z =>
        cases whenFalse' with
        | none => cases h.2.2.2
        | some z' =>
          exact .branch (he hs.2.1 hs'.2.1 h.2.1) (htrue hs.2.2.1 hs'.2.2.1 h.2.2.1)
            (.some (z.varies_of_alike z' hs.2.2.2.1 hs'.2.2.2.1 h.2.2.2.1))
    | _ => cases hshape
  | whileLoop e body =>
    cases s' with
    | whileLoop e' body' =>
      obtain ⟨-, he, hbody, -⟩ := hs
      obtain ⟨-, he', hbody', -⟩ := hs'
      obtain ⟨-, hee, hbb, -⟩ := h
      exact .whileLoop (e.varies_of_alike e' he he' hee)
        (body.varies_of_alike body' hbody hbody' hbb)
    | _ => cases hshape
  | forLoop initial condition step body =>
    cases s' with
    | forLoop initial' condition' step' body' =>
      obtain ⟨-, hi, hc, hstep, hbody, -⟩ := hs
      obtain ⟨-, hi', hc', hstep', hbody', -⟩ := hs'
      obtain ⟨-, hii, hcc, hss, hbb, -⟩ := h
      exact .forLoop (Stmt.rel_varies_of_alike initial initial' hi hi' hii)
        (Expr.rel_varies_of_alike condition condition' hc hc' hcc)
        (Expr.rel_varies_of_alike step step' hstep hstep' hss)
        (body.varies_of_alike body' hbody hbody' hbb)
    | _ => cases hshape
  | jump t value =>
    cases s' with
    | jump t' value' =>
      cases value with
      | none =>
        cases value' with
        | none => exact .jump (hs.1.lines_symbol hs'.1 h.1) .none
        | some e' => cases h.2
      | some e =>
        cases value' with
        | none => cases h.2
        | some e' =>
          exact .jump (hs.1.lines_symbol hs'.1 h.1)
            (.some (e.varies_of_alike e' hs.2.1 hs'.2.1 h.2.1))
    | _ => cases hshape
  | empty =>
    cases s' with
    | empty => exact .empty
    | _ => cases hshape
termination_by structural s

theorem Stmt.forall₂_varies_of_match (ss ss' : List Stmt)
    (hss : Every Word.IsReadable (Stmt.nests ss)) (hss' : Every Word.IsReadable (Stmt.nests ss'))
    (h : Match Word.text (Stmt.nests ss) (Stmt.nests ss')) :
    List.Forall₂ (Stmt.Varies .lines) ss ss' := by
  cases ss with
  | nil =>
    cases ss' with
    | nil => exact .nil
    | cons => cases h
  | cons s ss =>
    cases ss' with
    | nil => cases h
    | cons s' ss' =>
      exact .cons (s.varies_of_alike s' hss.1 hss'.1 h.1)
        (Stmt.forall₂_varies_of_match ss ss' hss.2 hss'.2 h.2)
termination_by structural ss

theorem Stmt.rel_varies_of_alike (s s' : Option Stmt) (hs : (Stmt.optionNest s).IsReadable)
    (hs' : (Stmt.optionNest s').IsReadable)
    (h : (Stmt.optionNest s).Alike Word.text (Stmt.optionNest s')) :
    Option.Rel (Stmt.Varies .lines) s s' := by
  cases s with
  | none =>
    cases s' with
    | none => exact .none
    | some s' => exact absurd (Nest.Alike.symm h) s'.not_alike_absent
  | some s =>
    cases s' with
    | none => exact absurd h s.not_alike_absent
    | some s' => exact .some (s.varies_of_alike s' hs hs' h)
termination_by structural s

theorem Routine.varies_of_match (r r' : Routine) (hr : Every Word.IsReadable r.nests)
    (hr' : Every Word.IsReadable r'.nests) (h : Match Word.text r.nests r'.nests) :
    r.Varies .lines r' := by
  cases r with
  | mk ps body =>
    cases r' with
    | mk ps' body' =>
      exact .mk (lines_of_match_names hr.1 hr'.1 h.1)
        (body.varies_of_alike body' hr.2.1 hr'.2.1 h.2.1)
termination_by structural r

theorem Definition.varies_of_alike (d d' : Definition) (hd : d.nest.IsReadable)
    (hd' : d'.nest.IsReadable) (h : d.nest.Alike Word.text d'.nest) : d.Varies .lines d' := by
  cases d with
  | mk t r =>
    cases d' with
    | mk t' r' =>
      exact .mk (hd.2.1.lines_name hd'.2.1 h.2.1) (r.varies_of_match r' hd.2.2 hd'.2.2 h.2.2)
termination_by structural d

theorem Definition.forall₂_varies_of_match (ds ds' : List Definition)
    (hds : Every Word.IsReadable (Definition.nests ds))
    (hds' : Every Word.IsReadable (Definition.nests ds'))
    (h : Match Word.text (Definition.nests ds) (Definition.nests ds')) :
    List.Forall₂ (Definition.Varies .lines) ds ds' := by
  cases ds with
  | nil =>
    cases ds' with
    | nil => exact .nil
    | cons => cases h
  | cons d ds =>
    cases ds' with
    | nil => cases h
    | cons d' ds' =>
      exact .cons (d.varies_of_alike d' hds.1 hds'.1 h.1)
        (Definition.forall₂_varies_of_match ds ds' hds.2 hds'.2 h.2)
termination_by structural ds

theorem Definition.forall₂_varies_of_class (ds ds' : List Definition)
    (hds : Every Word.IsReadable (Definition.classNests ds))
    (hds' : Every Word.IsReadable (Definition.classNests ds'))
    (h : Match Word.text (Definition.classNests ds) (Definition.classNests ds')) :
    List.Forall₂ (Definition.Varies .lines) ds ds' := by
  cases ds with
  | nil =>
    cases ds' with
    | nil => exact .nil
    | cons => cases h
  | cons d ds =>
    cases ds' with
    | nil => cases h
    | cons d' ds' =>
      exact .cons (d.varies_of_alike d' hds.1.2.1 hds'.1.2.1 h.1.2.1)
        (Definition.forall₂_varies_of_class ds ds' hds.2 hds'.2 h.2)
termination_by structural ds

end

end Lox

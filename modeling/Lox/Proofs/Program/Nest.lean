import Lox.Program.Form
import Lox.Proofs.Json.Reader
import Mathlib.Data.List.Forall2

/-!
# Words in nested parentheses

A text in parenthesised form is a word, or a list of such texts in parentheses. If words hold no
spaces and no parentheses, the text tells how it was put together: two nests with the same text are
alike, which is to say that they have the same words in the same places (`Nest.alike_of_text_eq`).
-/

namespace Lox

/-- A nest of words. -/
inductive Nest (α : Type) where
  /-- A word. -/
  | word (w : α)
  /-- A list in parentheses. -/
  | group (parts : List (Nest α))

/-- The characters of words; all others stand between words. -/
def inWord (c : Char) : Bool :=
  c != ' ' && c != '(' && c != ')'

/-- A text is a **word** when it is not empty and has no characters that stand between words. -/
def IsWord (text : String) : Prop :=
  text.toList ≠ [] ∧ text.toList.all inWord = true

instance (text : String) : Decidable (IsWord text) :=
  inferInstanceAs (Decidable (_ ∧ _))

namespace Nest

variable {α : Type}

mutual

/-- The text of a nest. -/
def text (f : α → String) : Nest α → String
  | word w => f w
  | group parts => parenthesised (texts f parts)

/-- The texts of nests. -/
def texts (f : α → String) : List (Nest α) → List String
  | [] => []
  | n :: ns => n.text f :: texts f ns

end

mutual

/-- All words of a nest have a property. -/
def All (P : α → Prop) : Nest α → Prop
  | word w => P w
  | group parts => Every P parts

/-- All words of some nests have a property. -/
def Every (P : α → Prop) : List (Nest α) → Prop
  | [] => True
  | n :: ns => n.All P ∧ Every P ns

end

mutual

/-- Whether all words of a nest have a property can be decided if it can for words. -/
def decidableAll (P : α → Prop) [DecidablePred P] : (n : Nest α) → Decidable (n.All P)
  | word w => inferInstanceAs (Decidable (P w))
  | group parts => decidableEvery P parts

/-- So it is with some nests. -/
def decidableEvery (P : α → Prop) [DecidablePred P] : (ns : List (Nest α)) → Decidable (Every P ns)
  | [] => .isTrue trivial
  | n :: ns => @instDecidableAnd _ _ (decidableAll P n) (decidableEvery P ns)

end

instance (P : α → Prop) [DecidablePred P] : DecidablePred (All P) :=
  decidableAll P

mutual

/-- Two nests have words of the same text in the same places. -/
def Alike (f : α → String) : Nest α → Nest α → Prop
  | word w, word w' => f w = f w'
  | group parts, group parts' => Match f parts parts'
  | _, _ => False

/-- Two lists of nests are alike, one by one. -/
def Match (f : α → String) : List (Nest α) → List (Nest α) → Prop
  | [], [] => True
  | n :: ns, n' :: ns' => n.Alike f n' ∧ Match f ns ns'
  | _, _ => False

end

variable {P Q : α → Prop} {f : α → String}

theorem every_iff {ns : List (Nest α)} : Every P ns ↔ ∀ n ∈ ns, n.All P := by
  induction ns with
  | nil => exact iff_of_true trivial (List.forall_mem_nil _)
  | cons n ns ih => rw [Every, ih, List.forall_mem_cons]

theorem every_append {ns ns' : List (Nest α)} :
    Every P (ns ++ ns') ↔ Every P ns ∧ Every P ns' := by
  rw [every_iff, every_iff, every_iff, List.forall_mem_append]

theorem match_iff {ns ns' : List (Nest α)} : Match f ns ns' ↔ List.Forall₂ (Alike f) ns ns' := by
  induction ns generalizing ns' with
  | nil =>
    cases ns' with
    | nil => exact iff_of_true trivial .nil
    | cons => exact iff_of_false id (by rintro ⟨⟩)
  | cons n ns ih =>
    cases ns' with
    | nil => exact iff_of_false id (by rintro ⟨⟩)
    | cons => rw [Match, ih, List.forall₂_cons]

mutual

theorem All.and : {n : Nest α} → n.All P → n.All Q → n.All fun w => P w ∧ Q w
  | word _, h, h' => ⟨h, h'⟩
  | group _, h, h' => Every.and h h'

theorem Every.and : {ns : List (Nest α)} → Every P ns → Every Q ns → Every (fun w => P w ∧ Q w) ns
  | [], _, _ => trivial
  | _ :: _, h, h' => ⟨h.1.and h'.1, h.2.and h'.2⟩

end

mutual

theorem All.imp (hPQ : ∀ w, P w → Q w) : {n : Nest α} → n.All P → n.All Q
  | word _, h => hPQ _ h
  | group _, h => Every.imp hPQ h

theorem Every.imp (hPQ : ∀ w, P w → Q w) : {ns : List (Nest α)} → Every P ns → Every Q ns
  | [], _ => trivial
  | _ :: _, h => ⟨h.1.imp hPQ, h.2.imp hPQ⟩

end

mutual

theorem Alike.symm : {n n' : Nest α} → n.Alike f n' → n'.Alike f n
  | word _, word _, h => Eq.symm h
  | group _, group _, h => Match.symm h

theorem Match.symm : {ns ns' : List (Nest α)} → Match f ns ns' → Match f ns' ns
  | [], [], _ => trivial
  | _ :: _, _ :: _, h => ⟨h.1.symm, h.2.symm⟩

end

/-! ### The characters of a nest -/

/-- The characters between the parentheses of a list. -/
def inner (f : α → String) (ns : List (Nest α)) : List Char :=
  [' '].intercalate ((texts f ns).map String.toList)

/-- The characters behind an entry of a list that is followed by others, and behind the list. -/
def behind (f : α → String) (rest : List Char) : List (Nest α) → List Char
  | [] => ')' :: rest
  | n :: ns => ' ' :: (inner f (n :: ns) ++ ')' :: rest)

theorem toList_text_group (f : α → String) (ns : List (Nest α)) :
    ((group ns).text f).toList = '(' :: (inner f ns ++ [')']) := by
  rw [text, parenthesised, String.toList_append, String.toList_append, String.toList_intercalate]
  rfl

theorem inner_cons_append (f : α → String) (n : Nest α) (ns : List (Nest α)) (rest : List Char) :
    inner f (n :: ns) ++ ')' :: rest = (n.text f).toList ++ behind f rest ns := by
  cases ns with
  | nil => simp [inner, texts, behind]
  | cons m ms => simp [inner, texts, behind, List.intercalate_cons_cons]

theorem stops_behind (f : α → String) (rest : List Char) (ns : List (Nest α)) :
    Json.Stops inWord (behind f rest ns) := by
  cases ns with
  | nil => exact Json.stops_cons (by decide) _
  | cons n ns => exact Json.stops_cons (by decide) _

/-- The first character of a nest says whether it is a word, and it ends no list. -/
theorem head?_toList_text {n : Nest α} (h : n.All fun w => IsWord (f w)) (rest : List Char) :
    ∃ c cs, (n.text f).toList ++ rest = c :: cs ∧ c ≠ ')' ∧
      (c = '(' ↔ ∃ parts, n = group parts) := by
  cases n with
  | word w =>
    obtain ⟨hne, hword⟩ := h
    obtain ⟨c, cs, hcs⟩ := List.exists_cons_of_ne_nil hne
    have hc : inWord c = true := List.all_eq_true.mp hword c (hcs ▸ List.mem_cons_self)
    refine ⟨c, cs ++ rest, by rw [text, hcs]; rfl, ?_, ?_⟩
    · rintro rfl
      cases hc
    · exact iff_of_false (by rintro rfl; cases hc) (by rintro ⟨_, ⟨⟩⟩)
  | group parts =>
    refine ⟨'(', inner f parts ++ [')'] ++ rest, by rw [toList_text_group]; rfl, by decide, ?_⟩
    exact iff_of_true rfl ⟨parts, rfl⟩

/-! ### Reading a nest -/

mutual

/-- **A text tells its nest**: if two nests are followed by something else than a further character
of a word, and the texts are the same, then the nests are alike and so is what follows. -/
theorem alike_of_append_eq {rest rest' : List Char} : (n n' : Nest α) →
    n.All (fun w => IsWord (f w)) → n'.All (fun w => IsWord (f w)) →
    Json.Stops inWord rest → Json.Stops inWord rest' →
    (n.text f).toList ++ rest = (n'.text f).toList ++ rest' → n.Alike f n' ∧ rest = rest'
  | word w, word w', hn, hn', hrest, hrest', h => by
    obtain ⟨htake, hdrop⟩ := Json.span_append (List.all_eq_true.mp hn.2) hrest
    obtain ⟨htake', hdrop'⟩ := Json.span_append (List.all_eq_true.mp hn'.2) hrest'
    rw [text, text] at h
    rw [h] at htake hdrop
    exact ⟨String.toList_inj.mp (htake.symm.trans htake'), hdrop.symm.trans hdrop'⟩
  | word w, group parts, hn, hn', _, _, h => by
    obtain ⟨c, cs, hc, -, hgroup⟩ := head?_toList_text (n := word w) hn rest
    obtain ⟨c', cs', hc', -, hgroup'⟩ := head?_toList_text (n := group parts) hn' rest'
    rw [hc, hc', List.cons.injEq] at h
    obtain ⟨_, ⟨⟩⟩ := hgroup.mp (h.1.trans (hgroup'.mpr ⟨parts, rfl⟩))
  | group parts, word w, hn, hn', _, _, h => by
    obtain ⟨c, cs, hc, -, hgroup⟩ := head?_toList_text (n := group parts) hn rest
    obtain ⟨c', cs', hc', -, hgroup'⟩ := head?_toList_text (n := word w) hn' rest'
    rw [hc, hc', List.cons.injEq] at h
    obtain ⟨_, ⟨⟩⟩ := hgroup'.mp (h.1.symm.trans (hgroup.mpr ⟨parts, rfl⟩))
  | group parts, group parts', hn, hn', _, _, h => by
    rw [toList_text_group, toList_text_group, List.cons_append, List.cons_append,
      List.append_assoc, List.append_assoc] at h
    exact match_of_append_eq parts parts' hn hn' (List.cons.inj h).2

theorem match_of_append_eq {rest rest' : List Char} : (ns ns' : List (Nest α)) →
    Every (fun w => IsWord (f w)) ns → Every (fun w => IsWord (f w)) ns' →
    inner f ns ++ ')' :: rest = inner f ns' ++ ')' :: rest' → Match f ns ns' ∧ rest = rest'
  | [], [], _, _, h => ⟨trivial, (List.cons.inj h).2⟩
  | [], n' :: ns', _, hns', h => by
    obtain ⟨c, cs, hc, hne, -⟩ := head?_toList_text hns'.1 (behind f rest' ns')
    rw [inner_cons_append, hc] at h
    exact absurd (List.cons.inj h).1.symm hne
  | n :: ns, [], hns, _, h => by
    obtain ⟨c, cs, hc, hne, -⟩ := head?_toList_text hns.1 (behind f rest ns)
    rw [inner_cons_append, hc] at h
    exact absurd (List.cons.inj h).1 hne
  | n :: ns, n' :: ns', hns, hns', h => by
    rw [inner_cons_append, inner_cons_append] at h
    obtain ⟨hfirst, hbehind⟩ := alike_of_append_eq n n' hns.1 hns'.1 (stops_behind f rest ns)
      (stops_behind f rest' ns') h
    have hmore : Match f ns ns' ∧ rest = rest' := by
      cases ns with
      | nil =>
        cases ns' with
        | nil => exact ⟨trivial, (List.cons.inj hbehind).2⟩
        | cons => exact absurd (List.cons.inj hbehind).1 (by decide)
      | cons m ms =>
        cases ns' with
        | nil => exact absurd (List.cons.inj hbehind).1 (by decide)
        | cons m' ms' =>
          exact match_of_append_eq (m :: ms) (m' :: ms') hns.2 hns'.2 (List.cons.inj hbehind).2
    exact ⟨⟨hfirst, hmore.1⟩, hmore.2⟩

end

theorem alike_of_text_eq {n n' : Nest α} (hn : n.All fun w => IsWord (f w))
    (hn' : n'.All fun w => IsWord (f w)) (h : n.text f = n'.text f) : n.Alike f n' :=
  (alike_of_append_eq n n' hn hn' (Json.stops_nil _) (Json.stops_nil _) (by rw [h])).1

end Nest

end Lox

import Lox.Program.OfTokens

/-!
# What a part of the reader reads

`Reply.Reads r x rest` says that a reply is the part `x` without a report, and that the tokens
`rest` are left. The lines a cursor remembers do not occur in it: they show in mistakes alone. For
each way in which the reader puts its replies together there is a lemma that takes the reading
apart.

Main statements:

* `Reply.Reads.parts`, `Reply.Reads.andThen` — a sequence reads what its two parts read one after
  the other;
* `Cursor.reads_expect_iff`, `Reply.Reads.expected` — the demanded tokens, and the same for names;
* `Cursor.next_of_rest`, `Cursor.accept_of_rest` — what a cursor sees, from the tokens left.
-/

namespace Lox

variable {α β : Type} {m n : Nat}

namespace Reply

/-- A reply is the part `x`, nothing was reported, and `rest` is left. -/
def Reads (r : Reply α n) (x : α) (rest : List Token) : Prop :=
  ∃ s h, r = .done x s [] h ∧ s.rest = rest

theorem reads_pure_iff {x y : α} {s : Cursor} {h : s.size < n} {rest : List Token} :
    (Reply.pure x s h).Reads y rest ↔ y = x ∧ s.rest = rest := by
  constructor
  · rintro ⟨s', h', heq, hrest⟩
    obtain ⟨rfl, rfl, -⟩ := Reply.done.inj heq
    exact ⟨rfl, hrest⟩
  · rintro ⟨rfl, hrest⟩
    exact ⟨s, h, rfl, hrest⟩

theorem not_reads_fail {line : Nat} {mistake : Mistake} {s : Cursor} {h : s.size ≤ n} {x : α}
    {rest : List Token} : ¬ (Reply.fail line mistake s h).Reads x rest := by
  rintro ⟨s', h', heq, -⟩
  exact nomatch heq

theorem reads_note_iff {r : Reply α n} {reports : List GrammarError} {x : α}
    {rest : List Token} : (r.note reports).Reads x rest ↔ reports = [] ∧ r.Reads x rest := by
  cases r with
  | done y s own h =>
    constructor
    · rintro ⟨s', h', heq, hrest⟩
      obtain ⟨rfl, rfl, hnil⟩ := Reply.done.inj heq
      obtain ⟨rfl, rfl⟩ := List.append_eq_nil_iff.mp hnil
      exact ⟨rfl, s, h, rfl, hrest⟩
    · rintro ⟨rfl, hr⟩
      exact hr
  | failed e s own h =>
    constructor
    · rintro ⟨s', h', heq, -⟩
      exact nomatch heq
    · rintro ⟨-, s', h', heq, -⟩
      exact nomatch heq

theorem reads_widen_iff {r : Reply α m} {h : m ≤ n} {x : α} {rest : List Token} :
    (r.widen h).Reads x rest ↔ r.Reads x rest := by
  cases r with
  | done y s own hs =>
    constructor
    · rintro ⟨s', h', heq, hrest⟩
      obtain ⟨rfl, rfl, rfl⟩ := Reply.done.inj heq
      exact ⟨s, hs, rfl, hrest⟩
    · rintro ⟨s', h', heq, hrest⟩
      obtain ⟨rfl, rfl, rfl⟩ := Reply.done.inj heq
      exact ⟨s, Nat.lt_of_lt_of_le hs h, rfl, hrest⟩
  | failed e s own hs =>
    constructor <;> rintro ⟨s', h', heq, -⟩ <;> exact nomatch heq

/-- A sequence reads what its first part reads, and behind it what its second part reads. -/
theorem Reads.parts {r : Reply α m} {f : α → (s : Cursor) → s.size < m → Reply β n} {h : m ≤ n}
    {y : β} {rest : List Token} (hr : (r.andThen f h).Reads y rest) :
    ∃ x s hs, r.Reads x s.rest ∧ (f x s hs).Reads y rest := by
  cases r with
  | done x s own hs =>
    obtain ⟨rfl, hf⟩ := reads_note_iff.mp hr
    exact ⟨x, s, hs, ⟨s, hs, rfl, rfl⟩, hf⟩
  | failed e s own hs =>
    obtain ⟨s', h', heq, -⟩ := hr
    exact nomatch heq

/-- The second part of a sequence is read from whatever cursor the first one leaves. -/
theorem Reads.andThen {r : Reply α m} {f : α → (s : Cursor) → s.size < m → Reply β n}
    {h : m ≤ n} {x : α} {y : β} {rest rest' : List Token} (hr : r.Reads x rest)
    (hf : ∀ s hs, s.rest = rest → (f x s hs).Reads y rest') : (r.andThen f h).Reads y rest' := by
  obtain ⟨s, hs, rfl, hrest⟩ := hr
  exact reads_note_iff.mpr ⟨rfl, hf s hs hrest⟩

end Reply

namespace Cursor

variable {s : Cursor} {t : Token} {rest : List Token} {x : Symbol}

theorem next_of_rest_nil (hs : s.rest = []) : s.next = .stop := by
  unfold next
  split
  · rfl
  · next heq => rw [hs] at heq; exact nomatch heq

/-- A cursor sees the first of the tokens left. -/
theorem next_of_rest (hs : s.rest = t :: rest) :
    ∃ s' h, s.next = .token t s' h ∧ s'.rest = rest := by
  unfold next
  split
  · next heq => rw [hs] at heq; exact nomatch heq
  · next t' ts heq =>
    obtain ⟨rfl, rfl⟩ := List.cons.inj (hs.symm.trans heq)
    exact ⟨⟨rest, t.line, s.endLine⟩, by simp [size, hs], rfl, rfl⟩

theorem rest_of_next {s' : Cursor} {h : s'.size < s.size} (hn : s.next = .token t s' h) :
    s.rest = t :: s'.rest := by
  cases hs : s.rest with
  | nil => rw [next_of_rest_nil hs] at hn; exact nomatch hn
  | cons t' ts =>
    obtain ⟨s'', h'', hn', rfl⟩ := next_of_rest hs
    obtain ⟨rfl, rfl⟩ := Next.token.inj (hn'.symm.trans hn)
    rfl

theorem skip_of_next {s' : Cursor} {h : s'.size < s.size} (hn : s.next = .token t s' h) :
    s.skip = s' := by
  obtain ⟨rest, lastLine, endLine⟩ := s
  cases rest with
  | nil => cases hn
  | cons t' ts =>
    cases hn
    rfl

theorem rest_of_next_stop (hn : s.next = .stop) : s.rest = [] := by
  cases hs : s.rest with
  | nil => rfl
  | cons t ts =>
    obtain ⟨s', h', hn', -⟩ := next_of_rest hs
    rw [hn'] at hn
    exact nomatch hn

/-- A symbol that stands in front is taken. -/
theorem accept_of_rest (hs : s.rest = t :: rest) (ht : t.kind = .symbol x) :
    ∃ s' h, s.accept x = .token t s' h ∧ s'.rest = rest := by
  obtain ⟨s', h, hn, hrest⟩ := next_of_rest hs
  refine ⟨s', h, ?_, hrest⟩
  simp only [accept, hn, Token.is_iff.mpr ht, if_true]

/-- Nothing is taken where the symbol does not stand in front. -/
theorem accept_eq_stop (hs : ∀ t ∈ s.rest.head?, t.kind ≠ .symbol x) : s.accept x = .stop := by
  cases hrest : s.rest with
  | nil => simp only [accept, next_of_rest_nil hrest]
  | cons t ts =>
    obtain ⟨s', h, hn, -⟩ := next_of_rest hrest
    have ht : ¬ t.is x = true := fun h => hs t (by simp [hrest]) (Token.is_iff.mp h)
    simp only [accept, hn, if_neg ht]

theorem rest_of_accept {s' : Cursor} {h : s'.size < s.size} (ha : s.accept x = .token t s' h) :
    s.rest = t :: s'.rest ∧ t.kind = .symbol x := by
  unfold accept at ha
  split at ha
  · next t' s'' h'' hn =>
    split at ha
    · next ht =>
      obtain ⟨rfl, rfl⟩ := Next.token.inj ha
      exact ⟨rest_of_next hn, Token.is_iff.mp ht⟩
    · cases ha
  · cases ha

theorem head_of_accept_stop (ha : s.accept x = .stop) :
    ∀ t ∈ s.rest.head?, t.kind ≠ .symbol x := by
  intro t ht hk
  obtain ⟨ts, hts⟩ := List.head?_eq_some_iff.mp ht
  obtain ⟨s', h, ha', -⟩ := accept_of_rest hts hk
  rw [ha'] at ha
  exact nomatch ha

theorem sees_iff : s.sees x = true ↔ ∃ t ∈ s.rest.head?, t.kind = .symbol x := by
  unfold sees
  split
  · next t ts hs => simp [Token.is_iff, hs]
  · next hs => simp [hs]

theorem reads_expect_iff {demand : Demand} :
    (s.expect x demand).Reads t rest ↔ s.rest = t :: rest ∧ t.kind = .symbol x := by
  constructor
  · intro hr
    unfold expect at hr
    split at hr
    · next t' s' h ha =>
      obtain ⟨rfl, rfl⟩ := Reply.reads_pure_iff.mp hr
      exact rest_of_accept ha
    · exact absurd hr Reply.not_reads_fail
  · rintro ⟨hs, ht⟩
    obtain ⟨s', h, ha, rfl⟩ := accept_of_rest hs ht
    simp only [expect, ha, Reply.reads_pure_iff, and_self]

theorem reads_expectName_iff {demand : Demand} :
    (s.expectName demand).Reads t rest ↔ s.rest = t :: rest ∧ t.kind = .identifier := by
  constructor
  · intro hr
    unfold expectName at hr
    split at hr
    · next t' s' h hn =>
      split at hr
      · next ht =>
        obtain ⟨rfl, rfl⟩ := Reply.reads_pure_iff.mp hr
        exact ⟨rest_of_next hn, ht⟩
      · exact absurd hr Reply.not_reads_fail
    · exact absurd hr Reply.not_reads_fail
  · rintro ⟨hs, ht⟩
    obtain ⟨s', h, hn, rfl⟩ := next_of_rest hs
    simp only [expectName, hn, ht, Reply.reads_pure_iff, and_self]

end Cursor

section
variable {s : Cursor} {demand : Demand} {f : Token → (s' : Cursor) → s'.size < s.size → Reply β n}
  {h : s.size ≤ n} {y : β} {rest : List Token}

/-- A demanded symbol stands in front of what is read behind it. -/
theorem Reply.Reads.expected {x : Symbol} (hr : ((s.expect x demand).andThen f h).Reads y rest) :
    ∃ t s' hs, s.rest = t :: s'.rest ∧ t.kind = .symbol x ∧ (f t s' hs).Reads y rest := by
  obtain ⟨t, s', hs, ht, hr⟩ := hr.parts
  obtain ⟨hrest, hkind⟩ := Cursor.reads_expect_iff.mp ht
  exact ⟨t, s', hs, hrest, hkind, hr⟩

/-- A demanded name stands in front of what is read behind it. -/
theorem Reply.Reads.expectedName (hr : ((s.expectName demand).andThen f h).Reads y rest) :
    ∃ t s' hs, s.rest = t :: s'.rest ∧ t.kind = .identifier ∧ (f t s' hs).Reads y rest := by
  obtain ⟨t, s', hs, ht, hr⟩ := hr.parts
  obtain ⟨hrest, hkind⟩ := Cursor.reads_expectName_iff.mp ht
  exact ⟨t, s', hs, hrest, hkind, hr⟩

end

end Lox

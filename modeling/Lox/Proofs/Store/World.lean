import Lox.Proofs.Store.Alike
import Lox.Proofs.Store.Chain
import Mathlib.Order.Basic

/-!
# Frames that stand for each other

Two collections of frames may mean the same although the second one has more frames. A **world**
says for each frame of the second collection which frame of the first one it stands for. Of the
frames that stand for the same one, the oldest defines the same names; the others are empty and lie
inside one that stands for the same frame, so that no name has another meaning in them
(`Frames.Match`). In the world `World.kept` the collections have the same frames, and each of them
stands for itself.

There is one lemma for each operation. New frames make a world larger, and what a frame stands for
never changes after that (`World.Stands.mono`). `Frames.Match.nearest?` is the reason why all
look-ups agree: the nearest frames that define a name stand for each other.
-/

namespace Lox

/-! ### Worlds -/

/-- Whether the frames of two collections have the same numbers. -/
inductive Naming where
  /-- A frame has the same number in both collections. -/
  | kept
  /-- A frame may have another number in the second collection, which may have frames more. -/
  | renamed

/-- What the frames of one collection stand for in another one. -/
inductive World : Naming → Type where
  /-- Each frame stands for itself, and so does a number that names no frame yet. -/
  | kept : World .kept
  /-- The frames that the frames stand for, in order. -/
  | renamed (origin : List FrameId) : World .renamed

variable {N : Naming}

namespace World

/-- The frames that the frames stand for, where that has to be told. -/
def origin : World N → List FrameId
  | .kept => []
  | .renamed origin => origin

/-- A world is larger if it says more. -/
instance : Preorder (World N) where
  le w w₁ := w.origin <+: w₁.origin
  le_refl w := List.prefix_refl w.origin
  le_trans _ _ _ := List.IsPrefix.trans

/-- The world with one frame more, which stands for the frame `f`. -/
def extend : World N → FrameId → World N
  | .kept, _ => .kept
  | .renamed origin, f => .renamed (origin ++ [f])

/-- The frame `f'` stands for the frame `f`. -/
def Stands : World N → FrameId → FrameId → Prop
  | .kept, f, f' => f' = f
  | .renamed origin, f, f' => origin[f']? = some f

/-- The frame `f'` is the oldest one that stands for the frame `f`. -/
structure Main (w : World N) (f f' : FrameId) : Prop where
  /-- It stands for the frame. -/
  stands : w.Stands f f'
  /-- No older frame does. -/
  le {g' : FrameId} : w.Stands f g' → f' ≤ g'

/-- The world fits collections with `n` and with `n'` frames: each frame of the second one stands
for a frame of the first one, and there is a frame for each of these. -/
def Fits : World N → Nat → Nat → Prop
  | .kept, n, n' => n' = n
  | .renamed origin, n, n' => origin.length = n' ∧ ∀ f, f ∈ origin ↔ f < n

/-- The world in which each of some frames stands for itself. -/
def same (size : Nat) : World .renamed :=
  .renamed (List.range size)

variable {w w₁ : World N} {f f' g g' : FrameId} {n n' : Nat}

theorem le_extend (w : World N) (f : FrameId) : w ≤ w.extend f := by
  cases w with
  | kept => exact le_rfl
  | renamed origin => exact List.prefix_append origin [f]

/-- What a frame stands for never changes. -/
theorem Stands.mono (h : w.Stands f f') (hw : w ≤ w₁) : w₁.Stands f f' := by
  cases w with
  | kept =>
    cases w₁
    exact h
  | renamed origin =>
    cases w₁ with
    | renamed origin₁ =>
      obtain ⟨later, hlater : origin ++ later = origin₁⟩ := hw
      have hlt : f' < origin.length := (List.getElem?_eq_some_iff.mp h).1
      show origin₁[f']? = some f
      rw [← hlater]
      exact (List.getElem?_append_left hlt).trans h

theorem Stands.unique (h : w.Stands f f') (h' : w.Stands g f') : f = g := by
  cases w with
  | kept => exact h.symm.trans h'
  | renamed origin => exact Option.some.inj (h.symm.trans h')

theorem Main.unique (h : w.Main f f') (h' : w.Main f g') : f' = g' :=
  Nat.le_antisymm (h.le h'.stands) (h'.le h.stands)

theorem Main.mono (h : w.Main f f') (hw : w ≤ w₁) : w₁.Main f f' := by
  refine ⟨h.stands.mono hw, fun {g'} hg => ?_⟩
  cases w with
  | kept =>
    cases w₁
    exact h.le hg
  | renamed origin =>
    cases w₁ with
    | renamed origin₁ =>
      obtain ⟨later, hlater : origin ++ later = origin₁⟩ := hw
      have hlt : f' < origin.length := (List.getElem?_eq_some_iff.mp h.stands).1
      rcases Nat.lt_or_ge g' origin.length with hold | hnew
      · replace hg : origin₁[g']? = some f := hg
        rw [← hlater] at hg
        exact h.le ((List.getElem?_append_left hold).symm.trans hg)
      · exact Nat.le_of_lt (Nat.lt_of_lt_of_le hlt hnew)

/-- Where frames keep their numbers, each is the only one that stands for itself. -/
theorem main_kept (f : FrameId) : kept.Main f f :=
  ⟨rfl, fun hg => Nat.le_of_eq hg.symm⟩

/-! #### Worlds that fit -/

theorem Fits.lt_iff (h : w.Fits n n') (hf : w.Stands f f') : f < n ↔ f' < n' := by
  cases w with
  | kept =>
    obtain rfl : n' = n := h
    obtain rfl : f' = f := hf
    exact Iff.rfl
  | renamed origin =>
    obtain ⟨rfl, hmem⟩ := h
    exact iff_of_true ((hmem f).mp (List.mem_of_getElem? hf)) (List.getElem?_eq_some_iff.mp hf).1

/-- In a world with one frame more, the new frame stands for the frame given, and all others stand
for what they did. -/
theorem stands_extend_iff {origin : List FrameId} :
    ((renamed origin).extend g).Stands f f' ↔
      (renamed origin).Stands f f' ∨ f' = origin.length ∧ f = g := by
  show (origin ++ [g])[f']? = some f ↔ origin[f']? = some f ∨ _
  rcases Nat.lt_trichotomy f' origin.length with hlt | rfl | hgt
  · have hne : f' ≠ origin.length := Nat.ne_of_lt hlt
    simp [List.getElem?_append_left hlt, hne]
  · simp [eq_comm]
  · have hne : f' ≠ origin.length := Nat.ne_of_gt hgt
    have hlength : (origin ++ [g]).length ≤ f' := by
      rw [List.length_append]
      exact hgt
    simp [List.getElem?_eq_none hlength, List.getElem?_eq_none (Nat.le_of_lt hgt), hne]

theorem Fits.extend (h : w.Fits n n') : (w.extend n).Fits (n + 1) (n' + 1) := by
  cases w with
  | kept => exact congrArg (· + 1) h
  | renamed origin =>
    refine ⟨?_, fun f => ?_⟩
    · rw [List.length_append, h.1]
      rfl
    · rw [List.mem_append, List.mem_singleton, h.2 f, Nat.lt_succ_iff_lt_or_eq]

/-- A new frame in the second collection only. -/
theorem Fits.extendIdle {w : World .renamed} (h : w.Fits n n') (hf : f < n) :
    (w.extend f).Fits n (n' + 1) := by
  cases w with
  | renamed origin =>
    refine ⟨?_, fun g => ?_⟩
    · rw [List.length_append, h.1]
      rfl
    · rw [List.mem_append, List.mem_singleton, h.2 g]
      exact or_iff_left_of_imp fun heq => heq ▸ hf

/-- New frames in both collections stand for each other. -/
theorem Fits.main_extend (h : w.Fits n n') : (w.extend n).Main n n' := by
  cases w with
  | kept =>
    obtain rfl : n' = n := h
    exact main_kept n'
  | renamed origin =>
    obtain ⟨rfl, hmem⟩ := h
    refine ⟨stands_extend_iff.mpr (.inr ⟨rfl, rfl⟩), fun {g'} hg => ?_⟩
    rcases stands_extend_iff.mp hg with hold | ⟨rfl, -⟩
    · exact absurd ((hmem n).mp (List.mem_of_getElem? hold)) (Nat.lt_irrefl n)
    · exact Nat.le_refl _

/-- Frames that stand for each other once there are new ones in both collections: either both are
the new ones, or neither is. -/
theorem Fits.of_extend (h : w.Fits n n') (hf : (w.extend n).Stands f f') :
    f = n ∧ f' = n' ∨ f ≠ n ∧ f' ≠ n' ∧ w.Stands f f' := by
  cases w with
  | kept =>
    obtain rfl : n' = n := h
    obtain rfl : f' = f := hf
    rcases eq_or_ne f' n' with heq | hne
    · exact .inl ⟨heq, heq⟩
    · exact .inr ⟨hne, hne, rfl⟩
  | renamed origin =>
    rcases stands_extend_iff.mp hf with hold | ⟨hnew, heq⟩
    · have hlt := (h.2 f).mp (List.mem_of_getElem? hold)
      exact .inr ⟨Nat.ne_of_lt hlt, Nat.ne_of_lt ((h.lt_iff hold).mp hlt), hold⟩
    · exact .inl ⟨heq, hnew.trans h.1⟩

theorem Fits.lt {w : World .renamed} (h : w.Fits n n') (hf : w.Stands f f') : f < n := by
  obtain ⟨origin⟩ := w
  exact (h.2 f).mp (List.mem_of_getElem? hf)

theorem Fits.stands_extend {w : World .renamed} (h : w.Fits n n') (f : FrameId) :
    (w.extend f).Stands f n' := by
  obtain ⟨origin⟩ := w
  exact stands_extend_iff.mpr (.inr ⟨h.1.symm, rfl⟩)

theorem Fits.exists_stands {w : World .renamed} (h : w.Fits n n') (hlt : f' < n') :
    ∃ f, w.Stands f f' := by
  obtain ⟨origin⟩ := w
  exact ⟨_, List.getElem?_eq_getElem (h.1 ▸ hlt)⟩

/-- Only the new frame in the second collection stands for another frame than before. -/
theorem Fits.of_extendIdle {w : World .renamed} (h : w.Fits n n') (hf : (w.extend g).Stands f f') :
    f' = n' ∧ f = g ∨ f' ≠ n' ∧ w.Stands f f' := by
  obtain ⟨origin⟩ := w
  rcases stands_extend_iff.mp hf with hold | ⟨hnew, heq⟩
  · have hlt := (List.getElem?_eq_some_iff.mp hold).1
    exact .inr ⟨Nat.ne_of_lt (h.1 ▸ hlt), hold⟩
  · exact .inl ⟨hnew.trans h.1, heq⟩

/-! #### Frames that stand for themselves -/

theorem stands_same : (same n).Stands f f' ↔ f = f' ∧ f < n := by
  show (List.range n)[f']? = some f ↔ _
  rw [List.getElem?_eq_some_iff]
  constructor
  · rintro ⟨hlt, rfl⟩
    rw [List.length_range] at hlt
    exact ⟨List.getElem_range _, by rwa [List.getElem_range]⟩
  · rintro ⟨rfl, hlt⟩
    exact ⟨by rwa [List.length_range], List.getElem_range _⟩

theorem main_same (h : f < n) : (same n).Main f f := by
  refine ⟨stands_same.mpr ⟨rfl, h⟩, fun hg => ?_⟩
  obtain ⟨rfl, -⟩ := stands_same.mp hg
  exact Nat.le_refl _

theorem fits_same (n : Nat) : (same n).Fits n n :=
  ⟨List.length_range, fun _ => List.mem_range⟩

end World

/-! ### Collections of frames -/

namespace Frames

variable {α α' : Type} {w : World N} {R : α → α' → Prop} {fs : Frames α} {fs' : Frames α'}
  {f f' p p' : FrameId}

/-- A frame that stands for another one without being the oldest one to do so: it is empty and lies
inside a frame that stands for the same one. -/
structure Idle (w : World N) (fs' : Frames α') (f f' : FrameId) : Prop where
  /-- It defines no name. -/
  own? (name : String) : fs'.own? f' name = none
  /-- The frame around it stands for the same frame. -/
  parent : ∃ p', fs'.parent? f' = some p' ∧ w.Stands f p'

/-- Collections of frames that mean the same in a world, with values as `R` says. -/
structure Match (w : World N) (R : α → α' → Prop) (fs : Frames α) (fs' : Frames α') : Prop where
  /-- Each frame of the second collection stands for one of the first, and all are stood for. -/
  fits : w.Fits fs.cells.size fs'.cells.size
  /-- The oldest frame that stands for a frame defines the same names. -/
  own? {f f' : FrameId} (name : String) :
    w.Main f f' → Option.Rel R (fs.own? f name) (fs'.own? f' name)
  /-- It lies in a frame that stands for the one around the other. -/
  parent? {f f' : FrameId} : w.Main f f' → Option.Rel w.Stands (fs.parent? f) (fs'.parent? f')
  /-- The others are empty. -/
  idle {f f' : FrameId} : w.Stands f f' → ¬ w.Main f f' → Idle w fs' f f'

/-- A frame that is idle stays so when another one is made. -/
theorem Idle.alloc {w₁ : World N} (h : Idle w fs' f f') (hne : f' ≠ fs'.cells.size) (hw : w ≤ w₁)
    (parent : Option FrameId) : Idle w₁ (fs'.alloc parent) f f' := by
  obtain ⟨p', hp, hstands⟩ := h.parent
  refine ⟨fun name => ?_, p', ?_, hstands.mono hw⟩
  · rw [own?_alloc]
    exact h.own? name
  · rwa [parent?_alloc_of_ne _ _ hne]

section

variable {R : α → α → Prop} (h : ∀ f name v, fs.own? f name = some v → R v v)
include h

theorem rel_own?_self (f : FrameId) (name : String) :
    Option.Rel R (fs.own? f name) (fs.own? f name) := by
  cases hv : fs.own? f name with
  | none => exact .none
  | some v => exact .some (h f name v hv)

/-- A collection means the same as itself, if only the frames that exist are considered. -/
theorem match_same : Match (.same fs.cells.size) R fs fs where
  fits := World.fits_same _
  own? {f f'} name hf := by
    obtain ⟨rfl, -⟩ := World.stands_same.mp hf.stands
    exact rel_own?_self h f name
  parent? {f f'} hf := by
    obtain ⟨rfl, hlt⟩ := World.stands_same.mp hf.stands
    cases hp : fs.parent? f with
    | none => exact .none
    | some p => exact .some (World.stands_same.mpr ⟨rfl, Nat.lt_trans (lt_of_parent? hp) hlt⟩)
  idle {f f'} hf hidle := by
    obtain ⟨rfl, hlt⟩ := World.stands_same.mp hf
    exact absurd (World.main_same hlt) hidle

end

namespace Match

/-- **The nearest frames that define a name stand for each other.** -/
theorem nearest? (h : Match w R fs fs') (name : String) (hf : w.Stands f f') :
    Option.Rel w.Main (fs.nearest? f name) (fs'.nearest? f' name) := by
  -- The induction is on the second frame: an idle one is left for an older one, which still stands
  -- for the same frame of the first collection.
  induction f' using Nat.strongRecOn generalizing f with
  | ind f' ih =>
    by_cases hmain : w.Main f f'
    · have hown := h.own? name hmain
      have hparent := h.parent? hmain
      rw [nearest?_eq, nearest?_eq fs']
      generalize fs.own? f name = v, fs'.own? f' name = v' at hown
      cases hown with
      | some hv => exact .some hmain
      | none =>
        generalize hp : fs.parent? f = p, hp' : fs'.parent? f' = p' at hparent
        cases hparent with
        | none => exact .none
        | some hstands => exact ih _ (lt_of_parent? hp') hstands
    · have hidle := h.idle hf hmain
      obtain ⟨p', hp, hstands⟩ := hidle.parent
      rw [nearest?_eq fs', hidle.own? name, hp]
      exact ih p' (lt_of_parent? hp) hstands

/-- A name means the same in frames that stand for each other. -/
theorem get? (h : Match w R fs fs') (name : String) (hf : w.Stands f f') :
    Option.Rel R (fs.get? f name) (fs'.get? f' name) := by
  have hnearest := h.nearest? name hf
  rw [get?_eq_nearest?, get?_eq_nearest?]
  generalize fs.nearest? f name = g, fs'.nearest? f' name = g' at hnearest
  cases hnearest with
  | none => exact .none
  | some hmain => exact h.own? name hmain

theorem has (h : Match w R fs fs') (name : String) (hf : w.Stands f f') :
    fs'.has f' name = fs.has f name := by
  have hnearest := h.nearest? name hf
  rw [has_eq_nearest?, has_eq_nearest?]
  generalize fs.nearest? f name = g, fs'.nearest? f' name = g' at hnearest
  cases hnearest <;> rfl

/-- In a larger world, more values may be alike. -/
theorem mono {R₁ : α → α' → Prop} (h : Match w R fs fs') (hR : ∀ v v', R v v' → R₁ v v') :
    Match w R₁ fs fs' :=
  { h with own? := fun name hf => optionRel_mono hR (h.own? name hf) }

/-- The same definition in the oldest frames that stand for each other. -/
theorem define (h : Match w R fs fs') (hf : w.Main f f') (name : String) {v : α} {v' : α'}
    (hv : R v v') : Match w R (fs.define f name v) (fs'.define f' name v') where
  fits := by
    rw [size_define, size_define]
    exact h.fits
  own? {g g'} name' hg := by
    have hsame : g' = f' ∧ g' < fs'.cells.size ↔ g = f ∧ g < fs.cells.size := by
      rw [h.fits.lt_iff hg.stands]
      refine and_congr_left fun _ => ⟨?_, ?_⟩
      · rintro rfl
        exact hg.stands.unique hf.stands
      · rintro rfl
        exact hg.unique hf
    rw [own?_define, own?_define]
    simp only [← and_assoc, hsame]
    split
    · exact .some hv
    · exact h.own? name' hg
  parent? hg := by
    rw [parent?_define, parent?_define]
    exact h.parent? hg
  idle {g g'} hg hidle := by
    obtain ⟨hown, p', hp, hstands⟩ := h.idle hg hidle
    -- The frame of the definition is not idle.
    have hne : g' ≠ f' := by
      rintro rfl
      rw [hg.unique hf.stands] at hidle
      exact hidle hf
    refine ⟨fun name' => ?_, p', by rwa [parent?_define], hstands⟩
    rw [own?_define, if_neg fun hall => hne hall.1]
    exact hown name'

theorem assign (h : Match w R fs fs') (hf : w.Stands f f') (name : String) {v : α} {v' : α'}
    (hv : R v v') : Match w R (fs.assign f name v).2 (fs'.assign f' name v').2 := by
  have hnearest := h.nearest? name hf
  rw [assign_eq_nearest?, assign_eq_nearest?]
  generalize fs.nearest? f name = g, fs'.nearest? f' name = g' at hnearest
  cases hnearest with
  | none => exact h
  | some hmain => exact h.define hmain name hv

/-- New frames in both collections, inside frames that stand for each other. -/
theorem alloc (h : Match w R fs fs') (hp : w.Stands p p') :
    Match (w.extend fs.cells.size) R (fs.alloc (some p)) (fs'.alloc (some p')) := by
  have hle := w.le_extend fs.cells.size
  have hlt := h.fits.lt_iff hp
  constructor
  case fits =>
    rw [size_alloc, size_alloc]
    exact h.fits.extend
  case own? =>
    intro f f' name hf
    rw [own?_alloc, own?_alloc]
    rcases h.fits.of_extend hf.stands with ⟨rfl, rfl⟩ | ⟨-, -, hold⟩
    · rw [own?_of_le (Nat.le_refl _), own?_of_le (Nat.le_refl _)]
      exact .none
    · exact h.own? name ⟨hold, fun hg => hf.le (hg.mono hle)⟩
  case parent? =>
    intro f f' hf
    rcases h.fits.of_extend hf.stands with ⟨rfl, rfl⟩ | ⟨hne, hne', hold⟩
    · rw [parent?_alloc_self, parent?_alloc_self, Option.filter_some, Option.filter_some]
      simp only [hlt]
      split
      · exact .some (hp.mono hle)
      · exact .none
    · rw [parent?_alloc_of_ne _ _ hne, parent?_alloc_of_ne _ _ hne']
      exact optionRel_mono (fun _ _ hq => hq.mono hle)
        (h.parent? ⟨hold, fun hg => hf.le (hg.mono hle)⟩)
  case idle =>
    intro f f' hf hidle
    rcases h.fits.of_extend hf with ⟨rfl, rfl⟩ | ⟨-, hne', hold⟩
    · exact absurd h.fits.main_extend hidle
    · exact (h.idle hold fun hmain => hidle (hmain.mono hle)).alloc hne' hle _

/-- A new frame in the second collection only, inside a frame that stands for the same one. -/
theorem allocIdle {w : World .renamed} (h : Match w R fs fs') (hp : w.Stands p p') :
    Match (w.extend p) R fs (fs'.alloc (some p')) := by
  have hle := w.le_extend p
  have hlt : p < fs.cells.size := h.fits.lt hp
  have hlt' : p' < fs'.cells.size := (h.fits.lt_iff hp).mp hlt
  have hof {f f' : FrameId} (hf : (w.extend p).Stands f f') :
      f' = fs'.cells.size ∧ f = p ∨ f' ≠ fs'.cells.size ∧ w.Stands f f' := h.fits.of_extendIdle hf
  -- The new frame is not the oldest one that stands for its frame.
  have hmain {f f' : FrameId} (hf : (w.extend p).Main f f') :
      f' ≠ fs'.cells.size ∧ w.Main f f' := by
    rcases hof hf.stands with ⟨rfl, rfl⟩ | ⟨hne, hold⟩
    · exact absurd (hf.le (hp.mono hle)) (Nat.not_le.mpr hlt')
    · exact ⟨hne, hold, fun hg => hf.le (hg.mono hle)⟩
  constructor
  case fits =>
    rw [size_alloc]
    exact h.fits.extendIdle hlt
  case own? =>
    intro f f' name hf
    rw [own?_alloc]
    exact h.own? name (hmain hf).2
  case parent? =>
    intro f f' hf
    obtain ⟨hne, hold⟩ := hmain hf
    rw [parent?_alloc_of_ne _ _ hne]
    exact optionRel_mono (fun _ _ hq => hq.mono hle) (h.parent? hold)
  case idle =>
    intro f f' hf hidle
    rcases hof hf with ⟨rfl, rfl⟩ | ⟨hne, hold⟩
    · refine ⟨fun name => ?_, p', parent?_alloc_size hlt', hp.mono hle⟩
      rw [own?_alloc, own?_of_le (Nat.le_refl _)]
    · exact (h.idle hold fun hmain => hidle (hmain.mono hle)).alloc hne hle _

end Match

end Frames

end Lox

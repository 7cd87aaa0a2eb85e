import Lox.Proofs.Store.Chain
import Mathlib.Data.List.Chain

/-!
# Frames that lie in the first one

Every frame but the first is made inside another one that exists, so the way outward from it comes
to the first frame. `Frames.Rooted` says so of a frame in terms of its chain, and by
`Frames.rooted_iff` the last frame of the chain is all that has to be known.
-/

namespace Lox

namespace Frames

variable {α : Type} {fs fs' : Frames α} {f p : FrameId} {name : String}

/-- From a frame the way outward is finite, comes by no frame twice, and ends in frame 0. -/
structure Rooted (fs : Frames α) (f : FrameId) : Prop where
  /-- The frame exists. -/
  lt_size : f < fs.cells.size
  /-- The way starts at the frame. -/
  head : (fs.chain f).head? = some f
  /-- Each frame on the way lies in the next one. -/
  outward : (fs.chain f).IsChain fun g p => fs.parent? g = some p
  /-- All frames on the way exist. -/
  exist : ∀ g ∈ fs.chain f, g < fs.cells.size
  /-- No frame is on the way twice. -/
  nodup : (fs.chain f).Nodup
  /-- The way ends in frame 0. -/
  last : (fs.chain f).getLast? = some 0
  /-- Frame 0 lies in no other one. -/
  top : fs.parent? 0 = none

theorem lt_size_of_parent? (h : fs.parent? f = some p) : f < fs.cells.size := by
  by_contra hle
  rw [parent?_of_le (Nat.not_lt.mp hle)] at h
  cases h

theorem chain_of_parent? (h : fs.parent? f = some p) : fs.chain f = f :: fs.chain p := by
  rw [chain_of_lt (lt_size_of_parent? h), h]
  rfl

theorem chain_of_parent?_eq_none (hf : f < fs.cells.size) (h : fs.parent? f = none) :
    fs.chain f = [f] := by
  rw [chain_of_lt hf, h]
  rfl

theorem head?_chain (hf : f < fs.cells.size) : (fs.chain f).head? = some f := by
  rw [chain_of_lt hf]
  rfl

theorem isChain_chain (fs : Frames α) (f : FrameId) :
    (fs.chain f).IsChain fun g p => fs.parent? g = some p := by
  induction f using Nat.strongRecOn with
  | ind f ih =>
    by_cases hf : f < fs.cells.size
    · cases hp : fs.parent? f with
      | none =>
        rw [chain_of_parent?_eq_none hf hp]
        exact .singleton f
      | some p =>
        rw [chain_of_parent? hp]
        refine List.isChain_cons.mpr ⟨fun g hg => ?_, ih p (lt_of_parent? hp)⟩
        by_cases hlt : p < fs.cells.size
        · rw [head?_chain hlt] at hg
          rwa [← Option.some.inj hg]
        · rw [chain_of_le (Nat.not_lt.mp hlt)] at hg
          cases hg
    · rw [chain_of_le (Nat.not_lt.mp hf)]
      exact .nil

theorem nodup_chain (fs : Frames α) (f : FrameId) : (fs.chain f).Nodup := by
  induction f using Nat.strongRecOn with
  | ind f ih =>
    by_cases hf : f < fs.cells.size
    · cases hp : fs.parent? f with
      | none =>
        rw [chain_of_parent?_eq_none hf hp]
        exact List.nodup_cons.mpr ⟨List.not_mem_nil, List.nodup_nil⟩
      | some p =>
        have hlt := lt_of_parent? hp
        rw [chain_of_parent? hp]
        -- The frames around a frame are older than it.
        exact List.nodup_cons.mpr
          ⟨fun hmem => Nat.not_le.mpr hlt (le_of_mem_chain hmem), ih p hlt⟩
    · rw [chain_of_le (Nat.not_lt.mp hf)]
      exact List.nodup_nil

/-- It is enough to know where the chain ends. -/
theorem rooted_iff : fs.Rooted f ↔ (fs.chain f).getLast? = some 0 := by
  refine ⟨Rooted.last, fun hlast => ?_⟩
  have hf : f < fs.cells.size := by
    by_contra hle
    rw [chain_of_le (Nat.not_lt.mp hle)] at hlast
    cases hlast
  refine ⟨hf, head?_chain hf, isChain_chain fs f, fun _ => lt_size_of_mem_chain, nodup_chain fs f,
    hlast, ?_⟩
  cases hp : fs.parent? 0 with
  | none => rfl
  | some p => exact absurd (lt_of_parent? hp) (Nat.not_lt_zero p)

theorem rooted_zero (h : 0 < fs.cells.size) : fs.Rooted 0 := by
  refine rooted_iff.mpr ?_
  cases hp : fs.parent? 0 with
  | none => rw [chain_of_parent?_eq_none h hp]; rfl
  | some p => exact absurd (lt_of_parent? hp) (Nat.not_lt_zero p)

/-- A frame inside one from which the way leads to frame 0. -/
theorem Rooted.inside (h : fs.Rooted p) (hp : fs.parent? f = some p) : fs.Rooted f := by
  rw [rooted_iff, chain_of_parent? hp, List.getLast?_cons, h.last]
  rfl

/-- The frame around one from which the way leads to frame 0. -/
theorem Rooted.parent (h : fs.Rooted f) (hp : fs.parent? f = some p) : fs.Rooted p := by
  have hlast := h.last
  have hout := h.exist p
  rw [chain_of_parent? hp, List.getLast?_cons] at hlast
  rw [rooted_iff]
  cases hchain : (fs.chain p).getLast? with
  | none =>
    -- A chain that ends with its first frame would have none around it.
    rw [hchain] at hlast
    obtain rfl : f = 0 := Option.some.inj hlast
    exact absurd (lt_of_parent? hp) (Nat.not_lt_zero p)
  | some last =>
    rw [hchain] at hlast
    exact hlast

/-- The way stays as it is while frames stay where they are. -/
theorem Rooted.mono (h : fs.Rooted f) (hsize : fs.cells.size ≤ fs'.cells.size)
    (hparent : ∀ g < fs.cells.size, fs'.parent? g = fs.parent? g) : fs'.Rooted f := by
  rw [rooted_iff, chain_congr_of_lt (Nat.le_refl _) hsize hparent h.lt_size]
  exact h.last

/-- A new frame inside one from which the way leads to frame 0. -/
theorem Rooted.alloc (h : fs.Rooted p) : (fs.alloc (some p)).Rooted fs.cells.size := by
  have hmono : (fs.alloc (some p)).Rooted p := by
    refine h.mono ?_ fun g hg => parent?_alloc fs (some p) hg
    rw [size_alloc]
    exact Nat.le_succ _
  exact hmono.inside (parent?_alloc_size h.lt_size)

theorem Rooted.define (h : fs.Rooted f) (g : FrameId) (name : String) (value : α) :
    (fs.define g name value).Rooted f := by
  rw [rooted_iff, chain_define]
  exact h.last

/-- **A name that frame 0 defines is found from everywhere inside**, and it means what frame 0 says
unless a nearer frame defines it too. -/
theorem Rooted.get? (h : fs.Rooted f) (hzero : (fs.own? 0 name).isSome) :
    (fs.get? f name).isSome ∧
      ((∀ g ∈ fs.chain f, g ≠ 0 → fs.own? g name = none) →
        fs.get? f name = fs.own? 0 name) := by
  rw [get?_eq_findSome?]
  have hmem : 0 ∈ fs.chain f := List.mem_of_getLast? h.last
  constructor
  · obtain ⟨value, hvalue⟩ := Option.isSome_iff_exists.mp hzero
    exact List.findSome?_isSome_iff.mpr ⟨0, hmem, by rw [hvalue]; rfl⟩
  · intro hfree
    obtain ⟨nearer, hchain⟩ := List.getLast?_eq_some_iff.mp h.last
    have hnodup := h.nodup
    rw [hchain] at hfree hnodup ⊢
    have hnearer : nearer.findSome? (fun g => fs.own? g name) = none := by
      refine List.findSome?_eq_none_iff.mpr fun g hg => hfree g (List.mem_append_left _ hg) ?_
      rintro rfl
      exact (List.nodup_append.mp hnodup).2.2 0 hg 0 (List.mem_singleton_self 0) rfl
    rw [List.findSome?_append, hnearer, Option.none_or, List.findSome?_singleton]

end Frames

end Lox

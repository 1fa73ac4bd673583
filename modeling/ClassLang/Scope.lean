import ClassLang.Bindings
import ClassLang.Value.Basic

/-!
# Scopes

A scope is a chain of frames, the innermost first. A name means its nearest binding, for reading
and for assignment alike; a definition always goes to the innermost frame.

* `ClassLang.Scope.find?` and `ClassLang.Scope.assign` read and write the nearest binding.
* `ClassLang.ScopeTree` keeps many frames at once, each with the frame it stands in.
-/

namespace ClassLang

/-- The variables of one block or call. -/
abbrev Frame := Bindings Value

/-- A chain of frames, the innermost first. -/
abbrev Scope := List Frame

namespace Scope

/-- The nearest binding of a name. -/
def find? (name : String) : Scope → Option Value
  | [] => none
  | frame :: outer =>
    match frame.find? name with
    | some value => some value
    | none => find? name outer

/-- Whether a frame binds a name. -/
def binds (name : String) : Scope → Bool
  | [] => false
  | frame :: outer => frame.contains name || binds name outer

/-- Change the nearest binding of a name. Nothing is created: a scope that does not bind the name
stays as it is. -/
def assign (name : String) (value : Value) : Scope → Scope
  | [] => []
  | frame :: outer =>
    if frame.contains name then frame.insert name value :: outer
    else frame :: assign name value outer

end Scope

/-! ### Many scopes -/

/-- A frame and the frame it stands in. -/
structure ScopeNode where
  /-- The number of the frame around this one; a root has none. -/
  parent : Option Nat
  /-- The bindings of the frame. -/
  frame : Frame
deriving Repr

/-- **Frames that stand in one another**, numbered in the order of their creation. A number is all
that is needed to get at a frame and at those around it. -/
structure ScopeTree where
  /-- The frames. -/
  nodes : Array ScopeNode
  /-- A frame stands in an older one. -/
  older : ∀ i j, nodes[i]?.bind ScopeNode.parent = some j → j < i

namespace ScopeTree

/-- No frames. -/
def empty : ScopeTree := ⟨#[], fun i j h => by simp at h⟩

/-- How many frames there are. -/
def size (t : ScopeTree) : Nat := t.nodes.size

/-- The number of the frame around frame `i`. -/
def parent? (t : ScopeTree) (i : Nat) : Option Nat := t.nodes[i]?.bind ScopeNode.parent

/-- The frame with number `i`. -/
def frame (t : ScopeTree) (i : Nat) : Frame :=
  match t.nodes[i]? with
  | some node => node.frame
  | none => .empty

/-- Add a frame, and give its number. It stands in the frame `parent`, if there is one. -/
def add (t : ScopeTree) (parent : Option Nat) (frame : Frame := .empty) : ScopeTree × Nat :=
  ({  nodes := t.nodes.push ⟨parent.filter (· < t.size), frame⟩
      older := by
        intro i j h
        rw [Array.getElem?_push] at h
        split at h
        · next hi =>
          have hj := (Option.filter_eq_some_iff.mp (show parent.filter _ = some j from h)).2
          exact hi ▸ of_decide_eq_true hj
        · exact t.older i j h },
    t.size)

/-- Put a frame in the place of frame `i`. -/
def setFrame (t : ScopeTree) (i : Nat) (frame : Frame) : ScopeTree where
  nodes := t.nodes.modify i fun node => { node with frame }
  older := by
    intro k j h
    refine t.older k j ?_
    rw [Array.getElem?_modify] at h
    split at h
    · cases hk : t.nodes[k]? <;> simp_all
    · exact h

/-- The numbers of the frames from frame `i` outwards, at most `count` of them. -/
def pathUpTo (t : ScopeTree) : Nat → Nat → List Nat
  | 0, _ => []
  | count + 1, i =>
    match t.parent? i with
    | none => [i]
    | some j => i :: t.pathUpTo count j

/-- The numbers of the frames from frame `i` outwards. Each is less than the one before. -/
def path (t : ScopeTree) (i : Nat) : List Nat := t.pathUpTo (i + 1) i

/-- The scope that begins at frame `i`. -/
def scope (t : ScopeTree) (i : Nat) : Scope := (t.path i).map t.frame

/-- Bind a name in frame `i`. -/
def define (t : ScopeTree) (i : Nat) (name : String) (value : Value) : ScopeTree :=
  t.setFrame i ((t.frame i).insert name value)

/-- What a name means in the scope that begins at frame `i`. -/
def find? (t : ScopeTree) (i : Nat) (name : String) : Option Value :=
  (t.scope i).find? name

/-- The nearest frame from frame `i` outwards that binds a name. -/
def binder? (t : ScopeTree) (i : Nat) (name : String) : Option Nat :=
  (t.path i).find? fun j => (t.frame j).contains name

/-- Change what a name means in the scope that begins at frame `i`, if it means anything. -/
def assign? (t : ScopeTree) (i : Nat) (name : String) (value : Value) : Option ScopeTree :=
  match t.binder? i name with
  | some j => some (t.define j name value)
  | none => none

/-! ### Adding and changing a frame -/

section Changes

variable (t : ScopeTree) (parent : Option Nat) (frame : Frame) (i j : Nat)

@[simp] theorem size_add : (t.add parent frame).1.size = t.size + 1 := Array.size_push _

@[simp] theorem size_setFrame : (t.setFrame i frame).size = t.size := Array.size_modify

theorem parent?_lt {t : ScopeTree} {i j : Nat} (h : t.parent? i = some j) : j < i := t.older i j h

/-- There is nothing around the oldest frame. -/
theorem parent?_zero : t.parent? 0 = none := by
  cases h : t.parent? 0 with
  | none => rfl
  | some j => exact absurd (parent?_lt h) (Nat.not_lt_zero j)

theorem parent?_add_of_lt {t : ScopeTree} {i : Nat} (h : i < t.size) :
    (t.add parent frame).1.parent? i = t.parent? i := by
  have hi : i ≠ t.nodes.size := Nat.ne_of_lt h
  rw [parent?, parent?, add, Array.getElem?_push, if_neg hi]

theorem node_add_size :
    (t.add parent frame).1.nodes[t.size]? = some ⟨parent.filter (· < t.size), frame⟩ :=
  Array.getElem?_push_size

theorem parent?_add_size {t : ScopeTree} {j : Nat} (h : j < t.size) :
    (t.add (some j) frame).1.parent? t.size = some j := by
  rw [parent?, node_add_size, Option.bind_some]
  simpa [Option.filter] using h

theorem frame_add_of_lt {t : ScopeTree} {i : Nat} (h : i < t.size) :
    (t.add parent frame).1.frame i = t.frame i := by
  have hi : i ≠ t.nodes.size := Nat.ne_of_lt h
  rw [ScopeTree.frame, ScopeTree.frame, add, Array.getElem?_push, if_neg hi]

theorem frame_add_size : (t.add parent frame).1.frame t.size = frame := by
  rw [ScopeTree.frame, node_add_size]

@[simp] theorem parent?_setFrame : (t.setFrame i frame).parent? j = t.parent? j := by
  rw [parent?, parent?, setFrame, Array.getElem?_modify]
  split
  · cases t.nodes[j]? <;> rfl
  · rfl

theorem frame_setFrame_self {t : ScopeTree} {i : Nat} (h : i < t.size) :
    (t.setFrame i frame).frame i = frame := by
  rw [ScopeTree.frame, setFrame, Array.getElem?_modify, if_pos rfl, Array.getElem?_eq_getElem h]
  rfl

theorem frame_setFrame_of_ne {i j : Nat} (h : j ≠ i) :
    (t.setFrame i frame).frame j = t.frame j := by
  rw [ScopeTree.frame, ScopeTree.frame, setFrame, Array.getElem?_modify, if_neg h.symm]

end Changes

/-! ### Walking outwards -/

variable {t u : ScopeTree} {i j : Nat}

/-- Induction along the walk from a frame outwards. -/
@[elab_as_elim]
theorem outwards {motive : Nat → Prop} (t : ScopeTree)
    (root : ∀ i, t.parent? i = none → motive i)
    (inner : ∀ i j, t.parent? i = some j → motive j → motive i) (i : Nat) : motive i := by
  induction i using Nat.strongRecOn with
  | ind i ih =>
    cases h : t.parent? i with
    | none => exact root i h
    | some j => exact inner i j h (ih j (parent?_lt h))

/-- A walk of more than `i` steps from frame `i` comes to its end. -/
theorem pathUpTo_eq {count : Nat} (h : i < count) : t.pathUpTo count i = t.path i := by
  induction i using Nat.strongRecOn generalizing count with
  | ind i ih =>
    obtain ⟨count, rfl⟩ : ∃ n, count = n + 1 := ⟨count - 1, by omega⟩
    rw [path, pathUpTo, pathUpTo]
    cases hparent : t.parent? i with
    | none => rfl
    | some j =>
      have hj := parent?_lt hparent
      exact congrArg (i :: ·) ((ih j hj (by omega)).trans (ih j hj hj).symm)

theorem path_of_root (h : t.parent? i = none) : t.path i = [i] := by
  rw [path, pathUpTo, h]

theorem path_of_parent (h : t.parent? i = some j) : t.path i = i :: t.path j := by
  rw [path, pathUpTo, h]
  exact congrArg (i :: ·) (pathUpTo_eq (parent?_lt h))

/-- The walk depends only on what stands in what. -/
theorem path_congr (h : ∀ j ≤ i, u.parent? j = t.parent? j) : u.path i = t.path i := by
  induction i using outwards t with
  | root i hroot => rw [path_of_root hroot, path_of_root ((h i (Nat.le_refl i)).trans hroot)]
  | inner i j hparent ih =>
    rw [path_of_parent hparent, path_of_parent ((h i (Nat.le_refl i)).trans hparent)]
    have hj := Nat.le_of_lt (parent?_lt hparent)
    exact congrArg (i :: ·) (ih fun k hk => h k (Nat.le_trans hk hj))

/-- Only older frames are on the walk. -/
theorem le_of_mem_path (h : j ∈ t.path i) : j ≤ i := by
  induction i using outwards t with
  | root i hroot =>
    rw [path_of_root hroot, List.mem_singleton] at h
    exact Nat.le_of_eq h
  | inner i k hparent ih =>
    rw [path_of_parent hparent, List.mem_cons] at h
    rcases h with rfl | h
    · exact Nat.le_refl _
    · exact Nat.le_trans (ih h) (Nat.le_of_lt (parent?_lt hparent))

/-- No frame is passed twice. -/
theorem nodup_path (t : ScopeTree) (i : Nat) : (t.path i).Nodup := by
  induction i using outwards t with
  | root i hroot =>
    rw [path_of_root hroot]
    exact List.pairwise_singleton _ i
  | inner i j hparent ih =>
    rw [path_of_parent hparent]
    refine List.nodup_cons.mpr ⟨fun hmem => ?_, ih⟩
    exact Nat.lt_irrefl i (Nat.lt_of_le_of_lt (le_of_mem_path hmem) (parent?_lt hparent))

theorem self_mem_path (t : ScopeTree) (i : Nat) : i ∈ t.path i := by
  cases h : t.parent? i with
  | none => simp [path_of_root h]
  | some j => simp [path_of_parent h]

end ScopeTree

end ClassLang

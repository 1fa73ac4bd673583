import ClassLang.Machine.Linked
import ClassLang.Proofs.Machine.Resolution

/-!
# What is seen of shared frames

Of all the frames of a machine with shared frames (`ClassLang.LinkedMachine`) one sees those on the
way from the current frame to that of the global variables. Seen in this way it is a machine that
holds the frames of the current call only (`ClassLang.LinkedMachine.view`), and opening and closing
a block or a call is what it is there.

What is not on the way has to be *left alone* (`ClassLang.LinkedMachine.Kept`): these frames hold
what they held, and all frames stand where they stood. From the frame of a call the way leads to the
global variables at once (`ClassLang.LinkedMachine.path_openCall`). So all frames that there were
before are out of its sight, and if all that is done inside leaves alone what cannot be seen, the
call leaves alone what it finds (`ClassLang.LinkedMachine.Kept.frame_of_openCall`).

All this is about machines that are *in order* (`ClassLang.LinkedMachine.Valid`). A new machine is
(`ClassLang.LinkedMachine.valid_start`), and it stays so when a block or a call is opened and when
whatever is done leaves alone what cannot be seen (`ClassLang.LinkedMachine.Kept.valid`).
-/

namespace ClassLang

/-! ### Trees with one root -/

namespace ScopeTree

variable {t u : ScopeTree} {i j : Nat} {name : String}

/-- **A tree with one root**: every frame but the first stands in another one. -/
structure Rooted (t : ScopeTree) : Prop where
  pos : 0 < t.size
  parent : ∀ {i}, 0 < i → i < t.size → ∃ j, t.parent? i = some j

/-- The frames from frame `i` outwards, without the outermost. -/
def inner (t : ScopeTree) (i : Nat) : List Nat := (t.path i).dropLast

/-- In a tree with one root every way outwards leads there. -/
theorem Rooted.path_eq (h : t.Rooted) (hi : i < t.size) : t.path i = t.inner i ++ [0] := by
  induction i using outwards t with
  | root i hroot =>
    rcases Nat.eq_zero_or_pos i with rfl | hpos
    · rw [inner, path_of_root hroot]
      rfl
    · obtain ⟨j, hj⟩ := h.parent hpos hi
      rw [hroot] at hj
      cases hj
  | inner i j hparent ih =>
    have hj := ih (Nat.lt_trans (parent?_lt hparent) hi)
    have hne : t.path j ≠ [] := List.ne_nil_of_mem (self_mem_path t j)
    rw [inner, path_of_parent hparent, List.dropLast_cons_of_ne_nil hne, List.cons_append]
    exact congrArg (i :: ·) hj

theorem Rooted.zero_mem_path (h : t.Rooted) (hi : i < t.size) : 0 ∈ t.path i := by
  rw [h.path_eq hi]
  exact List.mem_append_right _ (List.mem_singleton_self 0)

theorem Rooted.zero_notMem_inner (h : t.Rooted) (hi : i < t.size) : 0 ∉ t.inner i := by
  have hnodup := nodup_path t i
  rw [h.path_eq hi] at hnodup
  exact fun hmem => (List.nodup_append.mp hnodup).2.2 0 hmem 0 (List.mem_singleton_self 0) rfl

theorem Rooted.add (h : t.Rooted) {parent : Nat} (hparent : parent < t.size) (frame : Frame) :
    (t.add (some parent) frame).1.Rooted where
  pos := by simp
  parent {i} hi hlt := by
    rw [size_add] at hlt
    rcases Nat.lt_succ_iff_lt_or_eq.mp hlt with hold | rfl
    · rw [parent?_add_of_lt _ _ hold]
      exact h.parent hi hold
    · exact ⟨parent, parent?_add_size frame hparent⟩

theorem path_add_of_lt (parent : Option Nat) (frame : Frame) (hi : i < t.size) :
    (t.add parent frame).1.path i = t.path i :=
  path_congr fun _ hj => parent?_add_of_lt parent frame (Nat.lt_of_le_of_lt hj hi)

theorem path_add_size (frame : Frame) {parent : Nat} (hparent : parent < t.size) :
    (t.add (some parent) frame).1.path t.size = t.size :: t.path parent := by
  rw [path_of_parent (parent?_add_size frame hparent), path_add_of_lt _ _ hparent]

theorem path_setFrame (i : Nat) (frame : Frame) (j : Nat) :
    (t.setFrame i frame).path j = t.path j :=
  path_congr fun k _ => parent?_setFrame t frame i k

theorem Rooted.setFrame (h : t.Rooted) (i : Nat) (frame : Frame) : (t.setFrame i frame).Rooted where
  pos := by simpa using h.pos
  parent hi hlt := by
    rw [parent?_setFrame]
    exact h.parent hi (by simpa using hlt)

theorem map_frame_add (parent : Option Nat) (frame : Frame) {l : List Nat}
    (h : ∀ k ∈ l, k < t.size) : l.map (t.add parent frame).1.frame = l.map t.frame :=
  List.map_congr_left fun k hk => frame_add_of_lt parent frame (h k hk)

/-! ### Writing along a way -/

theorem binds_map_frame (name : String) (l : List Nat) :
    Scope.binds name (l.map t.frame) = l.any fun j => (t.frame j).contains name := by
  induction l with
  | nil => rfl
  | cons j rest ih => rw [List.map_cons, Scope.binds, List.any_cons, ih]

theorem map_frame_define_of_notMem {l : List Nat} (h : j ∉ l) (name : String) (value : Value) :
    l.map (t.define j name value).frame = l.map t.frame :=
  List.map_congr_left fun _ hk => frame_setFrame_of_ne t _ fun hkj => h (hkj ▸ hk)

/-- Binding a name again in the nearest frame that binds it is an assignment. -/
theorem map_frame_define {l : List Nat} (hnodup : l.Nodup) (hlt : ∀ k ∈ l, k < t.size)
    (h : (l.find? fun k => (t.frame k).contains name) = some j) (value : Value) :
    l.map (t.define j name value).frame = Scope.assign name value (l.map t.frame) := by
  induction l with
  | nil => cases h
  | cons k rest ih =>
    obtain ⟨hk, hrest⟩ := List.nodup_cons.mp hnodup
    obtain ⟨hksize, hrestsize⟩ := List.forall_mem_cons.mp hlt
    rw [List.map_cons, List.map_cons, Scope.assign]
    by_cases hbinds : (t.frame k).contains name = true
    · simp only [List.find?_cons, hbinds, Option.some.injEq] at h
      subst h
      rw [if_pos hbinds, map_frame_define_of_notMem hk]
      exact congrArg (· :: _) (frame_setFrame_self _ hksize)
    · simp only [List.find?_cons, hbinds] at h
      have hne : k ≠ j := fun hkj => hk (hkj ▸ List.mem_of_find?_eq_some h)
      rw [if_neg hbinds, ih hrest hrestsize h]
      exact congrArg (· :: _) (frame_setFrame_of_ne t _ hne)

end ScopeTree

/-! ### What is seen of shared frames -/

namespace LinkedMachine

variable {W : Type} {s s' s'' : LinkedMachine W}

/-- **A machine in order**: the frame of the global variables is around all others, and the current
frame is there. -/
structure Valid (s : LinkedMachine W) : Prop where
  rooted : s.frames.Rooted
  current : s.current < s.frames.size

/-- **What is seen from the current frame**: the frames on the way to that of the global variables,
by what they hold. -/
def view (s : LinkedMachine W) : Machine W :=
  { s.frameless with
    active := ⟨(s.frames.inner s.current).map s.frames.frame, s.self, s.depth⟩ }

/-- **What is left alone**: the machine is back where it was, the frames stand where they stood, and
those that are not on the way from the current frame outwards hold what they held. -/
structure Kept (s s' : LinkedMachine W) : Prop where
  current : s'.current = s.current
  self : s'.self = s.self
  depth : s'.depth = s.depth
  size : s.frames.size ≤ s'.frames.size
  parent : ∀ i < s.frames.size, s'.frames.parent? i = s.frames.parent? i
  frame : ∀ i < s.frames.size, i ∉ s.frames.path s.current → s'.frames.frame i = s.frames.frame i
  rooted : s'.frames.Rooted

theorem valid_start (settings : Settings) (sink : W) (journal : Journal) :
    (start settings sink journal).Valid where
  rooted := ⟨Nat.one_pos, fun {i} hi hlt => absurd (Nat.lt_of_lt_of_le hlt hi) (Nat.lt_irrefl i)⟩
  current := Nat.one_pos

/-- The frames on the way are there. -/
theorem Valid.lt_of_mem_path (h : s.Valid) {i : Nat} (hi : i ∈ s.frames.path s.current) :
    i < s.frames.size :=
  Nat.lt_of_le_of_lt (ScopeTree.le_of_mem_path hi) h.current

theorem Valid.lt_of_mem_inner (h : s.Valid) {i : Nat} (hi : i ∈ s.frames.inner s.current) :
    i < s.frames.size :=
  h.lt_of_mem_path ((List.dropLast_sublist _).subset hi)

theorem Valid.chain_view (h : s.Valid) : s.view.chain = s.frames.scope s.current := by
  rw [ScopeTree.scope, h.rooted.path_eq h.current, List.map_append]
  rfl

/-! ### What is left alone -/

theorem Kept.valid (h : Kept s s') (hs : s.Valid) : s'.Valid :=
  ⟨h.rooted, h.current ▸ Nat.lt_of_lt_of_le hs.current h.size⟩

/-- The way outwards is the same from all frames that there were. -/
theorem Kept.path (h : Kept s s') {i : Nat} (hi : i < s.frames.size) :
    s'.frames.path i = s.frames.path i :=
  ScopeTree.path_congr fun j hj => h.parent j (Nat.lt_of_le_of_lt hj hi)

theorem Kept.refl (hs : s.Valid) : Kept s s :=
  ⟨rfl, rfl, rfl, Nat.le_refl _, fun _ _ => rfl, fun _ _ _ => rfl, hs.rooted⟩

theorem Kept.trans (hs : s.Valid) (h : Kept s s') (h' : Kept s' s'') : Kept s s'' where
  current := h'.current.trans h.current
  self := h'.self.trans h.self
  depth := h'.depth.trans h.depth
  size := Nat.le_trans h.size h'.size
  parent i hi := (h'.parent i (Nat.lt_of_lt_of_le hi h.size)).trans (h.parent i hi)
  frame i hi hnot := by
    have hpath : s'.frames.path s'.current = s.frames.path s.current := by
      rw [h.current, h.path hs.current]
    rw [h'.frame i (Nat.lt_of_lt_of_le hi h.size) (hpath ▸ hnot), h.frame i hi hnot]
  rooted := h'.rooted

/-- What does not concern frames leaves all of them alone. -/
theorem kept_absorb (hs : s.Valid) (m : Machine W) : Kept s (s.absorb m) :=
  ⟨rfl, rfl, rfl, Nat.le_refl _, fun _ _ => rfl, fun _ _ _ => rfl, hs.rooted⟩

/-- Writing a frame on the way leaves the others alone. -/
theorem kept_define (hs : s.Valid) {j : Nat} (hj : j ∈ s.frames.path s.current) (name : String)
    (value : Value) : Kept s { s with frames := s.frames.define j name value } where
  current := rfl
  self := rfl
  depth := rfl
  size := Nat.le_of_eq (ScopeTree.size_setFrame _ _ _).symm
  parent i _ := ScopeTree.parent?_setFrame _ _ _ i
  frame _ _ hnot := ScopeTree.frame_setFrame_of_ne _ _ fun hij => hnot (hij ▸ hj)
  rooted := hs.rooted.setFrame _ _

/-! ### Opening and closing -/

theorem Valid.openBlock (hs : s.Valid) : s.openBlock.Valid :=
  ⟨hs.rooted.add hs.current .empty, by simp [LinkedMachine.openBlock]⟩

theorem Valid.openCall (hs : s.Valid) (ref : Object) (frame : Frame) :
    (s.openCall ref frame).Valid :=
  ⟨hs.rooted.add hs.rooted.pos frame, by simp [LinkedMachine.openCall]⟩

/-- From a block the way leads to the frame around it. -/
theorem path_openBlock (hs : s.Valid) :
    s.openBlock.frames.path s.frames.size = s.frames.size :: s.frames.path s.current :=
  ScopeTree.path_add_size .empty hs.current

/-- **From a call the way leads to the global variables**, past all other frames. -/
theorem path_openCall (hs : s.Valid) (ref : Object) (frame : Frame) :
    (s.openCall ref frame).frames.path s.frames.size = [s.frames.size, 0] := by
  have hpath := ScopeTree.path_add_size frame hs.rooted.pos
  rwa [ScopeTree.path_of_root (ScopeTree.parent?_zero s.frames)] at hpath

theorem inner_openBlock (hs : s.Valid) :
    s.openBlock.frames.inner s.frames.size = s.frames.size :: s.frames.inner s.current := by
  have hne : s.frames.path s.current ≠ [] := List.ne_nil_of_mem (ScopeTree.self_mem_path _ _)
  rw [ScopeTree.inner, path_openBlock hs, List.dropLast_cons_of_ne_nil hne, ScopeTree.inner]

theorem view_openBlock (hs : s.Valid) : s.openBlock.view = s.view.openBlock := by
  have hlocals : (s.openBlock.frames.inner s.openBlock.current).map s.openBlock.frames.frame =
      .empty :: (s.frames.inner s.current).map s.frames.frame := by
    rw [show s.openBlock.current = s.frames.size from rfl, inner_openBlock hs, List.map_cons]
    exact congr (congrArg _ (ScopeTree.frame_add_size _ _ _))
      (ScopeTree.map_frame_add _ _ fun _ => hs.lt_of_mem_inner)
  have hglobals : s.openBlock.frames.frame 0 = s.frames.frame 0 :=
    ScopeTree.frame_add_of_lt _ _ hs.rooted.pos
  rw [view, frameless, hlocals, hglobals]
  rfl

theorem view_openCall (hs : s.Valid) (ref : Object) (frame : Frame) :
    (s.openCall ref frame).view = s.view.openCall ref frame := by
  have hlocals : ((s.openCall ref frame).frames.inner s.frames.size).map
      (s.openCall ref frame).frames.frame = [frame] := by
    rw [ScopeTree.inner, path_openCall hs]
    exact congrArg (· :: []) (ScopeTree.frame_add_size _ _ _)
  have hglobals : (s.openCall ref frame).frames.frame 0 = s.frames.frame 0 :=
    ScopeTree.frame_add_of_lt _ _ hs.rooted.pos
  rw [view, frameless, show (s.openCall ref frame).current = s.frames.size from rfl, hlocals,
    hglobals]
  rfl

/-- A block leaves alone what is not on the way from the frame around it. -/
theorem Kept.backTo (hs : s.Valid) (h : Kept s.openBlock s') : Kept s (s'.backTo s.current) where
  current := rfl
  self := h.self
  depth := h.depth
  size := Nat.le_trans (Nat.le_succ _) (Nat.le_trans (Nat.le_of_eq (by simp [openBlock])) h.size)
  parent i hi := by
    have hi' : i < s.openBlock.frames.size := by simp [openBlock]; omega
    exact (h.parent i hi').trans (ScopeTree.parent?_add_of_lt _ _ hi)
  frame i hi hnot := by
    have hi' : i < s.openBlock.frames.size := by simp [openBlock]; omega
    refine (h.frame i hi' ?_).trans (ScopeTree.frame_add_of_lt _ _ hi)
    rw [show s.openBlock.current = s.frames.size from rfl, path_openBlock hs, List.mem_cons]
    rintro (rfl | hmem)
    · exact Nat.lt_irrefl _ hi
    · exact hnot hmem
  rooted := h.rooted

/-- **A call leaves all frames alone** that there were before, but that of the global variables. -/
theorem Kept.frame_of_openCall (hs : s.Valid) {ref : Object} {frame : Frame}
    (h : Kept (s.openCall ref frame) s') {i : Nat} (hpos : 0 < i) (hi : i < s.frames.size) :
    s'.frames.frame i = s.frames.frame i := by
  have hi' : i < (s.openCall ref frame).frames.size := by simp [openCall]; omega
  refine (h.frame i hi' ?_).trans (ScopeTree.frame_add_of_lt _ _ hi)
  rw [show (s.openCall ref frame).current = s.frames.size from rfl, path_openCall hs]
  simp only [List.mem_cons, List.not_mem_nil, or_false]
  omega

theorem Kept.closeCall (hs : s.Valid) {ref : Object} {frame : Frame}
    (h : Kept (s.openCall ref frame) s') : Kept s (s'.closeCall s.current s.self) where
  current := rfl
  self := rfl
  depth := by rw [LinkedMachine.closeCall, h.depth]; rfl
  size := Nat.le_trans (Nat.le_succ _) (Nat.le_trans (Nat.le_of_eq (by simp [openCall])) h.size)
  parent i hi := by
    have hi' : i < (s.openCall ref frame).frames.size := by simp [openCall]; omega
    exact (h.parent i hi').trans (ScopeTree.parent?_add_of_lt _ _ hi)
  frame i hi hnot := by
    refine h.frame_of_openCall hs (Nat.pos_of_ne_zero fun hzero => hnot ?_) hi
    exact hzero ▸ hs.rooted.zero_mem_path hs.current
  rooted := h.rooted

theorem view_backTo (hs : s.Valid) (h : Kept s.openBlock s') :
    (s'.backTo s.current).view = s'.view.closeBlock := by
  have hinner : s'.frames.inner s'.current = s.frames.size :: s'.frames.inner s.current := by
    have hpath : s'.frames.path s.current = s.frames.path s.current := (h.backTo hs).path hs.current
    rw [h.current, ScopeTree.inner, ScopeTree.inner, h.path hs.openBlock.current, hpath]
    exact inner_openBlock hs
  unfold view Machine.closeBlock
  rw [hinner]
  rfl

theorem view_closeCall (hs : s.Valid) {ref : Object} {frame : Frame}
    (h : Kept (s.openCall ref frame) s') :
    (s'.closeCall s.current s.self).view = s'.view.closeCall s.view.active := by
  have hkept := h.closeCall hs
  have hlocals : (s'.frames.inner s.current).map s'.frames.frame =
      (s.frames.inner s.current).map s.frames.frame := by
    have hpath : s'.frames.path s.current = s.frames.path s.current := hkept.path hs.current
    rw [ScopeTree.inner, hpath]
    refine List.map_congr_left fun i hi => ?_
    refine h.frame_of_openCall hs (Nat.pos_of_ne_zero ?_) (hs.lt_of_mem_inner hi)
    rintro rfl
    exact hs.rooted.zero_notMem_inner hs.current hi
  have hdepth : (s'.closeCall s.current s.self).depth = s.depth := hkept.depth
  unfold view Machine.closeCall
  rw [hdepth]
  exact congrArg (fun locals => { s'.frameless with active := ⟨locals, s.self, s.depth⟩ }) hlocals

end LinkedMachine

end ClassLang

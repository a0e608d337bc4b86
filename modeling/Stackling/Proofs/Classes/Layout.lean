import Mathlib.Algebra.Group.Nat.Defs
import Stackling.Code.Declaration
import Stackling.Proofs.Semantics.Eval
import Stackling.Proofs.Typing.Rules

/-!
# Layouts as lists

A layout is a table of members with places and offsets. Put in order, it is two lists: the fields by
place and the methods by place. `Lists` says so, and a member that a class adds changes one of the
lists by `putNamed`: it takes the place of the one it overrides, or a new one at the end.
-/

namespace Stackling

/-! ### Named items -/

section Named

variable {α β : Type} {items : List (String × α)} {x : String} {a : α}

theorem replace_eq_self (h : x ∉ items.map Prod.fst) :
    (items.map fun p => if p.1 = x then (x, a) else p) = items := by
  conv => rhs; rw [← List.map_id items]
  refine List.map_congr_left fun p hp => if_neg ?_
  rintro rfl
  exact h (List.mem_map_of_mem hp)

/-- With different names, an item is put either in one place or at the end. -/
theorem putNamed_cases (h : (items.map Prod.fst).Nodup) (x : String) (a : α) :
    (∃ i b, items[i]? = some (x, b) ∧ putNamed items x a = items.set i (x, a)) ∨
      x ∉ items.map Prod.fst ∧ putNamed items x a = items ++ [(x, a)] := by
  unfold putNamed
  by_cases hx : x ∈ items.map Prod.fst
  · rw [if_pos hx]
    obtain ⟨⟨y, b⟩, hmem, rfl⟩ := List.mem_map.mp hx
    obtain ⟨before, after, rfl⟩ := List.append_of_mem hmem
    rw [List.map_append, List.map_cons, List.nodup_append, List.nodup_cons] at h
    obtain ⟨-, ⟨hafter, -⟩, hbefore⟩ := h
    have hbefore' : y ∉ before.map Prod.fst := fun hy => hbefore y hy y List.mem_cons_self rfl
    refine .inl ⟨before.length, b, by simp, ?_⟩
    rw [List.map_append, List.map_cons, replace_eq_self hbefore', replace_eq_self hafter]
    simp
  · rw [if_neg hx]
    exact .inr ⟨hx, rfl⟩

theorem map_fst_putNamed (items : List (String × α)) (x : String) (a : α) :
    (putNamed items x a).map Prod.fst = addName (items.map Prod.fst) x := by
  unfold putNamed addName
  split
  · rw [List.map_map]
    refine List.map_congr_left fun p _ => ?_
    dsimp only [Function.comp_apply]
    split
    next h => exact h.symm
    next => rfl
  · rw [List.map_append]
    rfl

theorem nodup_addName {names : List String} (h : names.Nodup) (x : String) :
    (addName names x).Nodup := by
  unfold addName
  split
  · exact h
  next hx =>
    rw [List.nodup_append]
    refine ⟨h, List.nodup_singleton x, ?_⟩
    rintro y hy z hz rfl
    exact hx (List.mem_singleton.mp hz ▸ hy)

theorem getElem?_inj_of_nodup (h : (items.map Prod.fst).Nodup) {i j : Nat} {b c : α}
    (hi : items[i]? = some (x, b)) (hj : items[j]? = some (x, c)) : i = j := by
  have hlt : i < (items.map Prod.fst).length := by
    rw [List.length_map]
    exact (List.getElem?_eq_some_iff.mp hi).1
  refine (List.getElem?_inj hlt h).mp ?_
  rw [List.getElem?_map, List.getElem?_map, hi, hj]
  rfl

/-- In the list there is an item with the name, from which a thing is made. -/
def Makes (items : List (String × α)) (make : Nat → α → β) (x : String) (m : β) : Prop :=
  ∃ i a, items[i]? = some (x, a) ∧ m = make i a

theorem makes_set (h : (items.map Prod.fst).Nodup) {i : Nat} {b : α} (hi : items[i]? = some (x, b))
    (make : Nat → α → β) (y : String) (m : β) :
    Makes (items.set i (x, a)) make y m ↔ if y = x then m = make i a else Makes items make y m := by
  have hlt := (List.getElem?_eq_some_iff.mp hi).1
  constructor
  · rintro ⟨j, c, hj, rfl⟩
    rw [List.getElem?_set] at hj
    split at hj
    next hij =>
      subst hij
      cases hj
      rw [if_pos rfl]
    next hij =>
      split
      next hyx =>
        subst hyx
        exact absurd (getElem?_inj_of_nodup h hi hj) hij
      next => exact ⟨j, c, hj, rfl⟩
  · intro hm
    split at hm
    next hyx =>
      refine ⟨i, a, ?_, hm⟩
      rw [List.getElem?_set, if_pos rfl, if_pos hlt, hyx]
    next hyx =>
      obtain ⟨j, c, hj, rfl⟩ := hm
      refine ⟨j, c, ?_, rfl⟩
      rw [List.getElem?_set, if_neg]
      · exact hj
      · rintro rfl
        rw [hi] at hj
        cases hj
        exact hyx rfl

theorem makes_append (hx : x ∉ items.map Prod.fst) (make : Nat → α → β) (y : String) (m : β) :
    Makes (items ++ [(x, a)]) make y m ↔
      if y = x then m = make items.length a else Makes items make y m := by
  constructor
  · rintro ⟨j, c, hj, rfl⟩
    rw [List.getElem?_append] at hj
    split at hj
    next hlt =>
      rw [if_neg]
      · exact ⟨j, c, hj, rfl⟩
      · rintro rfl
        exact hx (List.mem_map_of_mem (List.mem_of_getElem? hj))
    next hge =>
      obtain ⟨hlt, heq⟩ := List.getElem?_eq_some_iff.mp hj
      rw [List.length_singleton] at hlt
      obtain rfl : j = items.length := by omega
      simp only [Nat.sub_self, List.getElem_cons_zero] at heq
      cases heq
      rw [if_pos rfl]
  · intro hm
    split at hm
    next hyx =>
      refine ⟨items.length, a, ?_, hm⟩
      rw [hyx, List.getElem?_concat_length]
    next =>
      obtain ⟨j, c, hj, rfl⟩ := hm
      refine ⟨j, c, ?_, rfl⟩
      rw [List.getElem?_append_left (List.getElem?_eq_some_iff.mp hj).1]
      exact hj

theorem length_addName_le (names : List String) (x : String) :
    (addName names x).length ≤ names.length + 1 := by
  unfold addName
  split <;> simp

theorem map_putNamed (f : α → β) (items : List (String × α)) (x : String) (a : α) :
    (putNamed items x a).map (fun p => (p.1, f p.2)) = putNamed (items.map fun p => (p.1, f p.2)) x
    (f a) := by
  have hnames : (items.map fun p => (p.1, f p.2)).map Prod.fst = items.map Prod.fst := by
    rw [List.map_map]
    rfl
  unfold putNamed
  rw [hnames]
  split
  · rw [List.map_map, List.map_map]
    refine List.map_congr_left fun p _ => ?_
    dsimp only [Function.comp_apply]
    split <;> rfl
  · rw [List.map_append]
    rfl

theorem length_le_length_putNamed (items : List (String × α)) (x : String) (a : α) :
    items.length ≤ (putNamed items x a).length := by
  unfold putNamed
  split <;> simp

/-- An item that is there after another one was put is that one, or it has another name. -/
theorem mem_putNamed {p : String × α} (h : p ∈ putNamed items x a) :
    p = (x, a) ∨ p ∈ items ∧ p.1 ≠ x := by
  unfold putNamed at h
  split at h
  · obtain ⟨q, hq, hp⟩ := List.mem_map.mp h
    split at hp
    next => exact .inl hp.symm
    next hne => exact .inr (hp ▸ ⟨hq, hne⟩)
  next hx =>
    rcases List.mem_append.mp h with h | h
    · exact .inr ⟨h, fun heq => hx (heq ▸ List.mem_map_of_mem h)⟩
    · exact .inl (List.mem_singleton.mp h)

variable {γ : Type} {name : γ → String} {value : γ → α}

theorem map_fst_foldl_putNamed (xs : List γ) (items : List (String × α)) :
    (xs.foldl (fun items x => putNamed items (name x) (value x)) items).map Prod.fst =
      (xs.map name).foldl addName (items.map Prod.fst) := by
  induction xs generalizing items with
  | nil => rfl
  | cons x xs ih => rw [List.foldl_cons, ih, map_fst_putNamed, List.map_cons, List.foldl_cons]

theorem map_foldl_putNamed (f : α → β) (xs : List γ) (items : List (String × α)) :
    (xs.foldl (fun items x => putNamed items (name x) (value x)) items).map
    (fun p => (p.1, f p.2)) =
      xs.foldl (fun items x => putNamed items (name x) (f (value x)))
        (items.map fun p => (p.1, f p.2)) := by
  induction xs generalizing items with
  | nil => rfl
  | cons x xs ih => rw [List.foldl_cons, ih, map_putNamed, List.foldl_cons]

theorem mem_foldl_putNamed {xs : List γ} {p : String × α}
    (h : p ∈ xs.foldl (fun items x => putNamed items (name x) (value x)) items) :
    (p ∈ items ∧ ∀ x ∈ xs, p.1 ≠ name x) ∨ ∃ x ∈ xs, p = (name x, value x) := by
  induction xs generalizing items with
  | nil => exact .inl ⟨h, nofun⟩
  | cons x xs ih =>
    rcases ih h with ⟨h, hxs⟩ | ⟨y, hy, hp⟩
    · rcases mem_putNamed h with h | ⟨h, hx⟩
      · exact .inr ⟨x, List.mem_cons_self, h⟩
      · exact .inl ⟨h, List.forall_mem_cons.mpr ⟨hx, hxs⟩⟩
    · exact .inr ⟨y, List.mem_cons_of_mem x hy, hp⟩

end Named

/-! ### Dispatch tables -/

theorem length_le_length_placeMethod (table : List Label) (offset : Int32) (label : Label) :
    table.length ≤ (placeMethod table offset label).length := by
  dsimp only [placeMethod]
  split
  · exact Nat.le_of_eq List.length_set.symm
  · rw [List.length_append]
    exact Nat.le_add_right _ _

theorem forall₂_getElem? {α β : Type} {R : α → β → Prop} {l : List α} {l' : List β}
    (h : List.Forall₂ R l l') {j : Nat} {b : β} (hj : l'[j]? = some b) :
    ∃ a, l[j]? = some a ∧ R a b := by
  induction h generalizing j with
  | nil => cases hj
  | cons hab _ ih =>
    cases j with
    | zero =>
      cases hj
      exact ⟨_, rfl, hab⟩
    | succ j => exact ih hj

theorem forall₂_set {α β : Type} {R : α → β → Prop} {l : List α} {l' : List β}
    (h : List.Forall₂ R l l') (i : Nat) {a : α} {b : β} (hab : R a b) :
    List.Forall₂ R (l.set i a) (l'.set i b) := by
  induction h generalizing i with
  | nil => exact .nil
  | cons hcd hrest ih =>
    cases i with
    | zero => exact .cons hab hrest
    | succ i => exact .cons hcd (ih i)

/-- A method goes to the place in the table that it has among the methods. -/
theorem forall₂_placeMethod {α : Type} {R : Label → String × α → Prop} {table : List Label}
    {methods : List (String × α)} (h : List.Forall₂ R table methods)
    (hnodup : (methods.map Prod.fst).Nodup) {x : String} {m : α} {i : Nat}
    (hi : (addName (methods.map Prod.fst) x)[i]? = some x) (hlt : i < 2 ^ 31) {label : Label}
    (hlabel : R label (x, m)) :
    List.Forall₂ R (placeMethod table (Int32.ofNat i) label) (putNamed methods x m) := by
  have hplace : ∀ j, (putNamed methods x m)[j]? = some (x, m) → i = j := by
    intro j hj
    refine (List.getElem?_inj (List.getElem?_eq_some_iff.mp hi).1 (nodup_addName hnodup x)).mp
      (hi.trans ?_)
    rw [← map_fst_putNamed methods x m, List.getElem?_map, hj]
    rfl
  rw [placeMethod, Int32.toNatClampNeg_ofNat_of_lt hlt, h.length_eq]
  rcases putNamed_cases hnodup x m with ⟨j, m', hj, hput⟩ | ⟨hx, hput⟩
  · have hlt := (List.getElem?_eq_some_iff.mp hj).1
    obtain rfl := hplace j (by rw [hput, List.getElem?_set_self hlt])
    rw [if_pos hlt, hput]
    exact forall₂_set h i hlabel
  · obtain rfl := hplace methods.length (by rw [hput, List.getElem?_concat_length])
    rw [if_neg (Nat.lt_irrefl _), hput]
    exact List.rel_append h (.cons hlabel .nil)

/-! ### Layouts -/

namespace ObjectLayout

/-- The member at a place among the fields. -/
def fieldMember (i : Nat) (ty : Ty) : Member := ⟨⟨memberDepth, ty, -(Int32.ofNat i) - 1⟩, i⟩

/-- The member at a place among the methods. -/
def methodMember (i : Nat) (sig : Signature) : Member :=
  ⟨⟨memberDepth, .method sig, Int32.ofNat i⟩, i⟩

/-- A layout has these fields and these methods, in the order of their places. -/
structure Lists (l : ObjectLayout) (fields : List (String × Ty))
    (methods : List (String × Signature)) :
    Prop where
  fields_ty : l.classTy.fields = fields.map Prod.snd
  methods_ty : l.classTy.methods = methods.map Prod.snd
  cells : l.fieldCells = fields.length
  fields_nodup : (fields.map Prod.fst).Nodup
  methods_nodup : (methods.map Prod.fst).Nodup
  fields_plain : ∀ t ∈ l.classTy.fields, t.Plain ∧ t.isMethod = false
  methods_plain : ∀ sig ∈ l.classTy.methods, (Ty.method sig).Plain
  member : ∀ (x : String) (m : Member),
    l.members[x]? = some m ↔ Makes fields fieldMember x m ∨ Makes methods methodMember x m

namespace Lists

variable {l : ObjectLayout} {fields : List (String × Ty)} {methods : List (String × Signature)}
  {x : String}

theorem empty : Lists {} [] [] where
  fields_ty := rfl
  methods_ty := rfl
  cells := rfl
  fields_nodup := List.nodup_nil
  methods_nodup := List.nodup_nil
  fields_plain := by simp [ClassTy.empty]
  methods_plain := by simp [ClassTy.empty]
  member := by simp [Makes]

theorem isMethod_field (h : l.Lists fields methods) {m : Member}
    (hm : Makes fields fieldMember x m) :
    m.isMethod = false := by
  obtain ⟨i, t, hi, rfl⟩ := hm
  refine (h.fields_plain t ?_).2
  rw [h.fields_ty]
  exact List.mem_map_of_mem (List.mem_of_getElem? hi)

theorem isMethod_method {m : Member} (hm : Makes methods methodMember x m) : m.isMethod = true := by
  obtain ⟨i, sig, -, rfl⟩ := hm
  rfl

theorem exists_field (h : l.Lists fields methods) (hx : x ∈ fields.map Prod.fst) :
    ∃ m, l.members[x]? = some m ∧ m.isMethod = false := by
  obtain ⟨⟨y, t⟩, hmem, rfl⟩ := List.mem_map.mp hx
  obtain ⟨i, hi⟩ := List.getElem?_of_mem hmem
  exact ⟨_, (h.member _ _).mpr (.inl ⟨i, t, hi, rfl⟩), h.isMethod_field ⟨i, t, hi, rfl⟩⟩

theorem exists_method (h : l.Lists fields methods) (hx : x ∈ methods.map Prod.fst) :
    ∃ m, l.members[x]? = some m ∧ m.isMethod = true := by
  obtain ⟨⟨y, sig⟩, hmem, rfl⟩ := List.mem_map.mp hx
  obtain ⟨i, hi⟩ := List.getElem?_of_mem hmem
  exact ⟨_, (h.member _ _).mpr (.inr ⟨i, sig, hi, rfl⟩), rfl⟩

/-- A new member in a table whose members are of two sorts, and the sort of the new one. -/
theorem member_insert {members : Std.TreeMap String Member} {new : Member}
    {P P' Q : String → Member → Prop}
    (hold : ∀ (y : String) (m : Member), members[y]? = some m ↔ P y m ∨ Q y m)
    (hnew : ∀ y m, P' y m ↔ if y = x then m = new else P y m) (hother : ∀ m, ¬Q x m) (y : String)
    (m : Member) :
    (members.insert x new)[y]? = some m ↔ P' y m ∨ Q y m := by
  rw [Std.TreeMap.getElem?_insert, hnew]
  by_cases hyx : y = x
  · subst hyx
    simp [hother, eq_comm]
  · have hcompare : ¬compare x y = .eq := fun h => hyx (Std.compare_eq_iff_eq.mp h).symm
    rw [if_neg hcompare, if_neg hyx]
    exact hold y m

/-- A field takes its place. -/
theorem place_field (h : l.Lists fields methods) {ty : Ty} (hplain : ty.Plain)
    (hty : ty.isMethod = false) (hkind : ∀ old, l.members[x]? = some old → old.isMethod = false) :
    ∃ i, (putNamed fields x ty)[i]? = some (x, ty) ∧ (l.place x ty).1 = fieldMember i ty ∧
      (l.place x ty).2.Lists (putNamed fields x ty) methods := by
  have hmethods : ∀ m, ¬Makes methods methodMember x m := fun m hm => by
    have := (hkind m ((h.member x m).mpr (.inr hm))).symm.trans (isMethod_method hm)
    cases this
  have hnodup : ((putNamed fields x ty).map Prod.fst).Nodup := by
    rw [map_fst_putNamed]
    exact nodup_addName h.fields_nodup x
  rcases putNamed_cases h.fields_nodup x ty with ⟨i, t, hi, hput⟩ | ⟨hx, hput⟩
  · have hlt := (List.getElem?_eq_some_iff.mp hi).1
    have hmember : l.members[x]? = some (fieldMember i t) :=
      (h.member x _).mpr (.inl ⟨i, t, hi, rfl⟩)
    have hplace : l.place x ty = (fieldMember i ty,
        { l with
          classTy := { l.classTy with fields := l.classTy.fields.set i ty }
          members := l.members.insert x (fieldMember i ty) }) := by
      cases ty <;> simp_all [place, override, fieldMember, Ty.isMethod]
    rw [hput] at hnodup
    rw [hplace, hput]
    refine ⟨i, by rw [List.getElem?_set_self hlt], rfl, ?_, h.methods_ty, ?_, hnodup,
      h.methods_nodup, ?_, h.methods_plain, ?_⟩
    · rw [h.fields_ty, List.map_set]
    · rw [List.length_set]
      exact h.cells
    · intro t' ht'
      rcases List.mem_or_eq_of_mem_set ht' with ht' | rfl
      · exact h.fields_plain t' ht'
      · exact ⟨hplain, hty⟩
    · exact member_insert h.member (makes_set h.fields_nodup hi fieldMember) hmethods
  · have hnone : l.members[x]? = none := by
      cases hm : l.members[x]? with
      | none => rfl
      | some m =>
        rcases (h.member x m).mp hm with ⟨i, t, hi, -⟩ | hm
        · exact absurd (List.mem_map_of_mem (List.mem_of_getElem? hi)) hx
        · exact absurd hm (hmethods m)
    have hcells : ty.cells = 1 := by
      cases ty <;> first | rfl | cases hplain
    have hplace : l.place x ty = (fieldMember fields.length ty,
        { l with
          classTy := { l.classTy with fields := l.classTy.fields ++ [ty] }
          fieldCells := l.fieldCells + 1
          members := l.members.insert x (fieldMember fields.length ty) }) := by
      simp [place, hnone, hty, addField, fieldMember, h.cells, h.fields_ty, hcells]
    rw [hput] at hnodup
    rw [hplace, hput]
    refine ⟨fields.length, List.getElem?_concat_length .., rfl, ?_, h.methods_ty, ?_, hnodup,
      h.methods_nodup, ?_, h.methods_plain, ?_⟩
    · rw [h.fields_ty, List.map_append]
      rfl
    · rw [List.length_append, h.cells]
      rfl
    · intro t' ht'
      rcases List.mem_append.mp ht' with ht' | ht'
      · exact h.fields_plain t' ht'
      · rw [List.mem_singleton.mp ht']
        exact ⟨hplain, hty⟩
    · exact member_insert h.member (makes_append hx fieldMember) hmethods

/-- A method takes its place. -/
theorem place_method (h : l.Lists fields methods) {sig : Signature} (hplain : (Ty.method sig).Plain)
    (hkind : ∀ old, l.members[x]? = some old → old.isMethod = true) :
    ∃ i, (putNamed methods x sig)[i]? = some (x, sig) ∧
      (l.place x (.method sig)).1 = methodMember i sig ∧
      (l.place x (.method sig)).2.Lists fields (putNamed methods x sig) := by
  have hfields : ∀ m, ¬Makes fields fieldMember x m := fun m hm => by
    have := (hkind m ((h.member x m).mpr (.inl hm))).symm.trans (h.isMethod_field hm)
    cases this
  have hmember := fun (y : String) (m : Member) => (h.member y m).trans or_comm
  have hnodup : ((putNamed methods x sig).map Prod.fst).Nodup := by
    rw [map_fst_putNamed]
    exact nodup_addName h.methods_nodup x
  rcases putNamed_cases h.methods_nodup x sig with ⟨i, s, hi, hput⟩ | ⟨hx, hput⟩
  · have hlt := (List.getElem?_eq_some_iff.mp hi).1
    have hold : l.members[x]? = some (methodMember i s) := (h.member x _).mpr (.inr ⟨i, s, hi, rfl⟩)
    have hplace : l.place x (.method sig) = (methodMember i sig,
        { l with
          classTy := { l.classTy with methods := l.classTy.methods.set i sig }
          members := l.members.insert x (methodMember i sig) }) := by
      simp [place, override, methodMember, hold]
    rw [hput] at hnodup
    rw [hplace, hput]
    refine ⟨i, by rw [List.getElem?_set_self hlt], rfl, h.fields_ty, ?_, h.cells, h.fields_nodup,
      hnodup, h.fields_plain, fun s' hs' => ?_, fun y m => ?_⟩
    · rw [h.methods_ty, List.map_set]
    · rcases List.mem_or_eq_of_mem_set hs' with hs' | rfl
      · exact h.methods_plain s' hs'
      · exact hplain
    · exact (member_insert hmember (makes_set h.methods_nodup hi methodMember) hfields y m).trans
        or_comm
  · have hnone : l.members[x]? = none := by
      cases hm : l.members[x]? with
      | none => rfl
      | some m =>
        rcases (h.member x m).mp hm with hm | ⟨i, t, hi, -⟩
        · exact absurd hm (hfields m)
        · exact absurd (List.mem_map_of_mem (List.mem_of_getElem? hi)) hx
    have hplace : l.place x (.method sig) = (methodMember methods.length sig,
        { l with
          classTy := { l.classTy with methods := l.classTy.methods ++ [sig] }
          members := l.members.insert x (methodMember methods.length sig) }) := by
      simp [place, hnone, addMethod, methodMember, h.methods_ty, Ty.isMethod]
    rw [hput] at hnodup
    rw [hplace, hput]
    refine ⟨methods.length, List.getElem?_concat_length .., rfl, h.fields_ty, ?_, h.cells,
      h.fields_nodup, hnodup, h.fields_plain, fun s' hs' => ?_, fun y m => ?_⟩
    · rw [h.methods_ty, List.map_append]
      rfl
    · rcases List.mem_append.mp hs' with hs' | hs'
      · exact h.methods_plain s' hs'
      · rw [List.mem_singleton.mp hs']
        exact hplain
    · exact (member_insert hmember (makes_append hx methodMember) hfields y m).trans or_comm

/-- The lists of a layout are determined. -/
theorem unique {fields' : List (String × Ty)} {methods' : List (String × Signature)}
    (h : l.Lists fields methods) (h' : l.Lists fields' methods') :
    fields = fields' ∧ methods = methods' := by
  have hfields : ∀ {fs fs' : List (String × Ty)} {ms ms' : List (String × Signature)},
      l.Lists fs ms →
      l.Lists fs' ms' → ∀ (i : Nat) (p : String × Ty), fs[i]? = some p → fs'[i]? = some p := by
    intro fs fs' ms ms' h h' i ⟨x, t⟩ hi
    have hm := (h'.member x _).mp ((h.member x _).mpr (.inl ⟨i, t, hi, rfl⟩))
    rcases hm with ⟨j, t', hj, heq⟩ | hm
    · obtain rfl : i = j := congrArg Member.position heq
      obtain rfl : t = t' := congrArg (·.entry.ty) heq
      exact hj
    · have hkind := (h.isMethod_field ⟨i, t, hi, rfl⟩).symm.trans (isMethod_method hm)
      cases hkind
  have hmethods : ∀ {fs fs' : List (String × Ty)} {ms ms' : List (String × Signature)},
      l.Lists fs ms →
      l.Lists fs' ms' → ∀ (i : Nat) (p : String × Signature), ms[i]? = some p →
      ms'[i]? = some p := by
    intro fs fs' ms ms' h h' i ⟨x, sig⟩ hi
    have hm := (h'.member x _).mp ((h.member x _).mpr (.inr ⟨i, sig, hi, rfl⟩))
    rcases hm with hm | ⟨j, sig', hj, heq⟩
    · have hkind := (h'.isMethod_field hm).symm.trans (isMethod_method ⟨i, sig, hi, rfl⟩)
      cases hkind
    · obtain rfl : i = j := congrArg Member.position heq
      obtain rfl : sig = sig' := Ty.method.inj (congrArg (·.entry.ty) heq)
      exact hj
  constructor
  · refine List.ext_getElem? fun i => Option.ext fun p => ⟨hfields h h' i p, hfields h' h i p⟩
  · refine List.ext_getElem? fun i => Option.ext fun p => ⟨hmethods h h' i p, hmethods h' h i p⟩

end Lists

end ObjectLayout

/-! ### The members of a class -/

/-- Each item of the first list has its place in the second one too, and there it is the same or
below it. -/
def Overrides {α : Type} (below : α → α → Prop) (old new : List (String × α)) : Prop :=
  ∀ (i : Nat) (x : String) (a : α), old[i]? = some (x, a) →
    ∃ b, new[i]? = some (x, b) ∧ (b = a ∨ below b a)

theorem Overrides.refl {α : Type} (below : α → α → Prop) (items : List (String × α)) :
    Overrides below items items :=
  fun _ _ a h => ⟨a, h, .inl rfl⟩

theorem Overrides.trans {α : Type} {below : α → α → Prop}
    (htrans : ∀ a b c, below a b → below b c → below a c) {l₁ l₂ l₃ : List (String × α)}
    (h : Overrides below l₁ l₂) (h' : Overrides below l₂ l₃) :
    Overrides below l₁ l₃ := by
  intro i x a hi
  obtain ⟨b, hb, hba⟩ := h i x a hi
  obtain ⟨c, hc, hcb⟩ := h' i x b hb
  refine ⟨c, hc, ?_⟩
  rcases hcb with rfl | hcb
  · exact hba
  · rcases hba with rfl | hba
    · exact .inr hcb
    · exact .inr (htrans _ _ _ hcb hba)

theorem Overrides.mono {α : Type} {below below' : α → α → Prop}
    (himp : ∀ a b, below a b → below' a b) {l₁ l₂ : List (String × α)} (h : Overrides below l₁ l₂) :
    Overrides below' l₁ l₂ := by
  intro i x a hi
  obtain ⟨b, hb, hba⟩ := h i x a hi
  exact ⟨b, hb, hba.imp_right (himp b a)⟩

theorem Overrides.put {α : Type} {below : α → α → Prop} {old items : List (String × α)}
    (h : Overrides below old items) (hnodup : (items.map Prod.fst).Nodup) {x : String} {a : α}
    (hbelow : ∀ (i : Nat) (b : α), (putNamed items x a)[i]? = some (x, a) →
      (old.map Prod.snd)[i]? = some b → below a b) :
    Overrides below old (putNamed items x a) := by
  intro i y b hi
  obtain ⟨c, hc, hcb⟩ := h i y b hi
  rcases putNamed_cases hnodup x a with ⟨j, d, hj, hput⟩ | ⟨-, hput⟩
  · by_cases hij : j = i
    · subst hij
      have hlt := (List.getElem?_eq_some_iff.mp hj).1
      obtain rfl : y = x := congrArg Prod.fst (Option.some.inj (hc.symm.trans hj))
      have hget : (putNamed items y a)[j]? = some (y, a) := by rw [hput, List.getElem?_set_self hlt]
      refine ⟨a, hget, .inr (hbelow j b hget ?_)⟩
      rw [List.getElem?_map, hi]
      rfl
    · refine ⟨c, ?_, hcb⟩
      rw [hput, List.getElem?_set_ne hij]
      exact hc
  · refine ⟨c, ?_, hcb⟩
    rw [hput, List.getElem?_append_left (List.getElem?_eq_some_iff.mp hc).1]
    exact hc

/-- The fields and methods after one more member. -/
def OwnMember.put (p : List (String × Ty) × List (String × Signature)) (m : OwnMember) :
    List (String × Ty) × List (String × Signature) :=
  match m.ty with
  | .method sig => (p.1, putNamed p.2 m.name sig)
  | ty => (putNamed p.1 m.name ty, p.2)

theorem OwnMember.put_of_isMethod {m : OwnMember} (h : m.ty.isMethod = false)
    (p : List (String × Ty) × List (String × Signature)) :
    m.put p = (putNamed p.1 m.name m.ty, p.2) := by
  unfold OwnMember.put
  split
  next heq =>
    rw [heq] at h
    cases h
  next => rfl

/-- What the own members of a class make of the lists that it inherits. -/
theorem Lays.lists {r : Resolution} {inherited : ClassTy} {seen : List String} {l l' : ObjectLayout}
    {own : List OwnMember} (h : Lays r inherited seen l own l')
    {oldFields : List (String × Ty)} {oldMethods : List (String × Signature)}
    (hfields : inherited.fields = oldFields.map Prod.snd)
    (hmethods : inherited.methods = oldMethods.map Prod.snd)
    {p : List (String × Ty) × List (String × Signature)} (hl : l.Lists p.1 p.2)
    (hf : Overrides (r.hierarchy.isSubtype · ·) oldFields p.1)
    (hm : Overrides (fun s t => r.hierarchy.isSubtype (.method s) (.method t)) oldMethods p.2) :
    l'.Lists (own.foldl OwnMember.put p).1 (own.foldl OwnMember.put p).2 ∧
      Overrides (r.hierarchy.isSubtype · ·) oldFields (own.foldl OwnMember.put p).1 ∧
      Overrides (fun s t => r.hierarchy.isSubtype (.method s) (.method t)) oldMethods
        (own.foldl OwnMember.put p).2 := by
  induction h generalizing p with
  | nil => exact ⟨hl, hf, hm⟩
  | @cons seen l l' m own hname hplain hkind hdecl hadmits hrest ih =>
    rw [List.foldl_cons]
    cases hty : m.ty.isMethod with
    | false =>
      rw [hty] at hkind
      rw [ClassTy.Admits, hty] at hadmits
      obtain ⟨i, hi, hplace, hlists⟩ := hl.place_field hplain hty hkind
      rw [m.put_of_isMethod hty]
      refine ih hlists (hf.put hl.fields_nodup ?_) hm
      intro j t hj ht
      obtain rfl := getElem?_inj_of_nodup hlists.fields_nodup hi hj
      rw [hplace] at hadmits
      exact hadmits t (hfields ▸ ht)
    | true =>
      obtain ⟨id, name, pos, ty⟩ := m
      cases ty with
      | method sig =>
        obtain ⟨i, hi, hplace, hlists⟩ := hl.place_method hplain hkind
        refine ih hlists hf (hm.put hl.methods_nodup ?_)
        intro j s hj hs
        obtain rfl := getElem?_inj_of_nodup hlists.methods_nodup hi hj
        have hplace' : (l.place name (.method sig)).1.position = i :=
          congrArg Member.position hplace
        have hs' : inherited.methods[(l.place name (.method sig)).1.position]? = some s := by
          rw [hplace', hmethods]
          exact hs
        exact hadmits s hs'
      | int | bool | null | ref _ | arrow _ | cls _ => cases hty

end Stackling

import Pigeon.Transform.VObject.Property

/-! # Components

The properties of a file are gone through once, with the number of components that are open. A well-nested list is
written from a forest, whose outermost wanted components are what is found.
-/
namespace Pigeon.Transform.VObject

open Library

set_option autoImplicit false

def beginName : Text := "BEGIN".toList

def endName : Text := "END".toList

/-- The name of the component that a `BEGIN` line opens. -/
def Property.componentName (prop : Property) : Text := (Text.trim prop.value).map Char.toUpper

structure Walk where
  found : List (Text × List Property)
  stack : List Text
  opened : Option Nat

/-- A property behind those of the last component. -/
def pushProperty (found : List (Text × List Property)) (prop : Property) : List (Text × List Property) :=
  match found.getLast? with
  | some (name, props) => found.dropLast ++ [(name, props ++ [prop])]
  | none => found

/-- The body of the loop of `components`. -/
def Walk.read (wanted : List Text) (w : Walk) (prop : Property) : Walk :=
  if prop.name = beginName then
    if w.opened = none ∧ wanted.contains prop.componentName then
      ⟨w.found ++ [(prop.componentName, [])], prop.componentName :: w.stack, some w.stack.length⟩
    else { w with stack := prop.componentName :: w.stack }
  else if prop.name = endName then
    { w with stack := w.stack.tail, opened := if w.opened = some w.stack.tail.length then none else w.opened }
  else
    match w.opened with
    | some depth => if w.stack.length = depth + 1 then { w with found := pushProperty w.found prop } else w
    | none => w

def components (properties : List Property) (wanted : List Text) : List (Text × List Property) :=
  (properties.foldl (Walk.read wanted) ⟨[], [], none⟩).found

/-! ## Well-nested properties -/

/-- A property that neither opens nor closes a component. -/
abbrev Content : Type := { prop : Property // prop.name ≠ beginName ∧ prop.name ≠ endName }

abbrev Opening : Type := { prop : Property // prop.name = beginName }

abbrev Closing : Type := { prop : Property // prop.name = endName }

inductive Forest where
  | nil
  | property (prop : Content) (rest : Forest)
  | component (opening : Opening) (body : Forest) (closing : Closing) (rest : Forest)

namespace Forest

def flatten : Forest → List Property
  | nil => []
  | property prop rest => prop.val :: rest.flatten
  | component opening body closing rest => opening.val :: (body.flatten ++ closing.val :: rest.flatten)

/-- The properties within no component of the forest. -/
def direct : Forest → List Property
  | nil => []
  | property prop rest => prop.val :: rest.direct
  | component _ _ _ rest => rest.direct

/-- The wanted components within no wanted one, each with its direct properties. -/
def outermost (wanted : List Text) : Forest → List (Text × List Property)
  | nil => []
  | property _ rest => rest.outermost wanted
  | component opening body _ rest =>
    if wanted.contains opening.val.componentName then
      (opening.val.componentName, body.direct) :: rest.outermost wanted
    else body.outermost wanted ++ rest.outermost wanted

end Forest

/-! ## One line -/

namespace Walk

variable {wanted : List Text} {found : List (Text × List Property)} {stack : List Text} {opened : Option Nat}

theorem read_content_of_opened (prop : Content) {depth : Nat} : read wanted ⟨found, stack, some depth⟩ prop.val =
    ⟨if stack.length = depth + 1 then pushProperty found prop.val else found, stack, some depth⟩ := by
  rw [read, if_neg prop.property.1, if_neg prop.property.2]
  dsimp only
  split
  · rfl
  · rfl

theorem read_content_of_closed (prop : Content) : read wanted ⟨found, stack, none⟩ prop.val = ⟨found, stack, none⟩ := by
  rw [read, if_neg prop.property.1, if_neg prop.property.2]

theorem read_opening_of_closed (opening : Opening) : read wanted ⟨found, stack, none⟩ opening.val =
    if wanted.contains opening.val.componentName then
      ⟨found ++ [(opening.val.componentName, [])], opening.val.componentName :: stack, some stack.length⟩
    else ⟨found, opening.val.componentName :: stack, none⟩ := by
  rw [read, if_pos opening.property]
  simp only [true_and]

theorem read_opening_of_opened (opening : Opening) {depth : Nat} :
    read wanted ⟨found, stack, some depth⟩ opening.val = ⟨found, opening.val.componentName :: stack, some depth⟩ := by
  rw [read, if_pos opening.property, if_neg]
  exact fun hClosed => Option.some_ne_none depth hClosed.1

theorem read_closing (closing : Closing) (name : Text) :
    read wanted ⟨found, name :: stack, opened⟩ closing.val =
      ⟨found, stack, if opened = some stack.length then none else opened⟩ := by
  have hOther : ¬ closing.val.name = beginName := by
    rw [closing.property]
    decide
  rw [read, if_neg hOther, if_pos closing.property]
  rfl

theorem pushProperty_append (name : Text) (props : List Property) (prop : Property) :
    pushProperty (found ++ [(name, props)]) prop = found ++ [(name, props ++ [prop])] := by
  rw [pushProperty, List.getLast?_concat, List.dropLast_concat]

/-! ## A forest -/

/-- Nothing is taken from components within the wanted one. -/
theorem foldl_read_deeper (f : Forest) {depth : Nat} (hDeeper : depth + 1 < stack.length) :
    f.flatten.foldl (read wanted) ⟨found, stack, some depth⟩ = ⟨found, stack, some depth⟩ := by
  induction f generalizing stack with
  | nil => rfl
  | property prop rest ih =>
    rw [Forest.flatten, List.foldl_cons, read_content_of_opened, if_neg hDeeper.ne', ih hDeeper]
  | component opening body closing rest ihBody ihRest =>
    have hStay : ¬ some depth = some stack.length := fun hSame => by
      have := Option.some.inj hSame
      omega
    rw [Forest.flatten, List.foldl_cons, List.foldl_append, List.foldl_cons, read_opening_of_opened,
      ihBody (hDeeper.trans (Nat.lt_succ_self _)), read_closing, if_neg hStay, ihRest hDeeper]

/-- What is directly within the wanted component goes to its end. -/
theorem foldl_read_direct (f : Forest) (name : Text) (props : List Property) {depth : Nat}
    (hDirect : stack.length = depth + 1) :
    f.flatten.foldl (read wanted) ⟨found ++ [(name, props)], stack, some depth⟩ =
      ⟨found ++ [(name, props ++ f.direct)], stack, some depth⟩ := by
  induction f generalizing props with
  | nil => rw [Forest.direct, List.append_nil]; rfl
  | property prop rest ih =>
    rw [Forest.flatten, List.foldl_cons, read_content_of_opened, if_pos hDirect, pushProperty_append, ih, Forest.direct,
      List.append_assoc]
    rfl
  | component opening body closing rest _ ihRest =>
    have hStay : ¬ some depth = some stack.length := fun hSame => by
      have := Option.some.inj hSame
      omega
    have hDeeper : depth + 1 < (opening.val.componentName :: stack).length := hDirect ▸ Nat.lt_succ_self _
    rw [Forest.flatten, List.foldl_cons, List.foldl_append, List.foldl_cons, read_opening_of_opened,
      foldl_read_deeper body hDeeper, read_closing, if_neg hStay, ihRest, Forest.direct]

/-- Outside the wanted components every outermost one is found. -/
theorem foldl_read_outermost (f : Forest) : f.flatten.foldl (read wanted) ⟨found, stack, none⟩ =
    ⟨found ++ f.outermost wanted, stack, none⟩ := by
  induction f generalizing found stack with
  | nil => rw [Forest.outermost, List.append_nil]; rfl
  | property prop rest ih =>
    rw [Forest.flatten, List.foldl_cons, read_content_of_closed]
    exact ih
  | component opening body closing rest ihBody ihRest =>
    rw [Forest.flatten, List.foldl_cons, List.foldl_append, List.foldl_cons, read_opening_of_closed, Forest.outermost]
    split
    · rw [foldl_read_direct body _ _ rfl, read_closing, if_pos rfl, ihRest, List.nil_append, List.append_assoc]
      rfl
    · rw [ihBody, read_closing, if_neg (Option.some_ne_none _).symm, ihRest, List.append_assoc]

end Walk

/-- The components of a well-nested list are the outermost wanted ones of its forest. -/
theorem components_flatten (f : Forest) (wanted : List Text) : components f.flatten wanted = f.outermost wanted := by
  rw [components, Walk.foldl_read_outermost, List.nil_append]

end Pigeon.Transform.VObject

import Pigeon.Transform.VObject.Escapes
import Pigeon.Transform.VObject.QuotedPrintable

/-! # Properties

The value of a property is kept as it is written, and decoded where it is read as one text or as components.
-/
namespace Pigeon.Transform.VObject

open Library

set_option autoImplicit false

structure Property where
  group : Option Text
  name : Text
  params : List (Text × Text)
  value : Text
deriving DecidableEq, Repr

namespace Property

def param (prop : Property) (name : Text) : Option Text := (prop.params.find? fun entry => entry.1 == name).map Prod.snd

def paramValues (prop : Property) (name : Text) : List Text :=
  (((prop.params.filter fun entry => entry.1 == name).flatMap fun entry => entry.2.splitOn ',').map Text.trim).filter
    fun value => !value.isEmpty

def isBase64 (prop : Property) : Bool :=
  (prop.param "ENCODING".toList).any fun encoding =>
    encoding.map Char.toUpper == "B".toList || encoding.map Char.toUpper == "BASE64".toList

def isQuotedPrintable (prop : Property) : Bool :=
  (prop.param "ENCODING".toList).any fun encoding => encoding.map Char.toUpper == "QUOTED-PRINTABLE".toList

def decoded (prop : Property) : Text :=
  if prop.isQuotedPrintable then decodeQuotedPrintable prop.value else prop.value

def text (prop : Property) : Text := unescape prop.decoded

def components (prop : Property) : List Text := (splitUnescaped ';' prop.decoded).map unescape

end Property

/-- A structured value is read back component by component, and one text by itself. -/
theorem components_of_escapes {strings pieces : List Text} (hStrings : strings ≠ [])
    (hPieces : List.Forall₂ Escapes strings pieces) :
    (splitUnescaped ';' ([';'].intercalate pieces)).map unescape = strings ∧
      (∀ prop : Property, prop.decoded = [';'].intercalate pieces → prop.components = strings) ∧
      ∀ s t, Escapes s t → unescape t = s ∧ ∀ prop : Property, prop.decoded = t → prop.text = s := by
  have hSplit := splitUnescaped_intercalate hStrings hPieces
  have hRead := map_unescape_of_escapes hPieces
  refine ⟨by rw [hSplit, hRead], ?_, ?_⟩
  · intro prop hValue
    rw [Property.components, hValue, hSplit, hRead]
  · intro s t hEscapes
    refine ⟨hEscapes.unescape, fun prop hValue => ?_⟩
    rw [Property.text, hValue, hEscapes.unescape]

def streetAddress : Property := ⟨none, "ADR".toList, [], "a\\\\\\;b;;\\Nc\\,".toList⟩

/-- A backslash before a semicolon, and an empty component. -/
theorem streetAddress_components : streetAddress.components = ["a\\;b".toList, [], "\nc,".toList] := by
  have hEscapes : List.Forall₂ Escapes ["a\\;b".toList, [], "\nc,".toList] ["a\\\\\\;b".toList, [], "\\Nc\\,".toList] :=
    .cons (escapes_escape "a\\;b".toList)
      (.cons .nil (.cons (.newline 'N' (by decide) (escapes_escape "c,".toList)) .nil))
  exact (components_of_escapes (List.cons_ne_nil _ _) hEscapes).2.1 streetAddress rfl

end Pigeon.Transform.VObject

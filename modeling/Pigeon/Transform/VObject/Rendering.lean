import Pigeon.Library.Rows
import Pigeon.Transform.VObject.Components

/-! # Rendered calendars and contacts

What is pushed to the output is a list of pieces, each of the renderer's own words or of what a property holds.
-/
namespace Pigeon.Transform.VObject

open Library

set_option autoImplicit false

inductive Piece where
  | own (text : Text)
  | content (text : Text)
deriving DecidableEq, Repr

def Piece.text : Piece → Text
  | own text => text
  | content text => text

def written (pieces : List Piece) : Text := pieces.flatMap Piece.text

/-- Own words, from a string. -/
def word (s : String) : Piece := .own s.toList

def isBlank (s : Text) : Bool := (Text.trim s).isEmpty

def first (props : List Property) (name : String) : Option Property := props.find? fun prop => prop.name == name.toList

def named (props : List Property) (name : String) : List Property := props.filter fun prop => prop.name == name.toList

def pushLine (line : Text) : List Piece :=
  (if isBlank line then [] else [word "  ", .content (Text.trimEnd line)]) ++ [word "\n"]

def pushField (label : List Piece) (value : Text) : List Piece :=
  let value := Text.trimEnd value
  if isBlank value then []
  else if '\n' ∈ value then label ++ [word ":\n"] ++ (Text.lines value).flatMap pushLine
  else label ++ [word ": ", .content (Text.trim value), word "\n"]

def joinNonempty (parts : List Text) (separator : String) : Text :=
  separator.toList.intercalate ((parts.map Text.trim).filter fun part => !part.isEmpty)

/-! ## Times and persons -/

/-- The text behind so many bytes, if a character ends there. -/
def behindBytes (bytes : Nat) : Text → Option Text
  | [] => if bytes = 0 then some [] else none
  | c :: s =>
    if bytes = 0 then some (c :: s) else if c.utf8Size ≤ bytes then behindBytes (bytes - c.utf8Size) s else none

/-- The first so many bytes of the text, if a character ends there. -/
def firstBytes (bytes : Nat) : Text → Option Text
  | [] => if bytes = 0 then some [] else none
  | c :: s =>
    if bytes = 0 then some []
    else if c.utf8Size ≤ bytes then (firstBytes (bytes - c.utf8Size) s).map (c :: ·) else none

/-- `str::get` of a range -/
def getRange (start stop : Nat) (s : Text) : Option Text := (behindBytes start s).bind (firstBytes (stop - start))

def digits (body : Text) (start stop : Nat) : Option Text := (getRange start stop body).filter fun part => part.all Char.isDigit

def renderTime (prop : Property) : Text × Option Text :=
  let raw := Text.trim prop.value
  let tzid := prop.param "TZID".toList
  let utc := raw.getLast? = some 'Z' ∨ raw.getLast? = some 'z'
  let body := if utc then raw.dropLast else raw
  match digits body 0 4, digits body 4 6, digits body 6 8 with
  | some year, some month, some day =>
    let date := year ++ '-' :: month ++ '-' :: day
    if Text.byteLength body = 8 then (date, tzid)
    else
      match getRange 8 9 body, digits body 9 11, digits body 11 13, digits body 13 15 with
      | some mark, some hour, some minute, some second =>
        if (mark = ['T'] ∨ mark = ['t']) ∧ Text.byteLength body = 15 then
          let time := date ++ ' ' :: hour ++ ':' :: minute
          (if second = ['0', '0'] then time else time ++ ':' :: second,
            tzid.or (if utc then some "UTC".toList else none))
        else (raw, tzid)
      | _, _, _, _ => (raw, tzid)
  | _, _, _ => (raw, tzid)

def withZone (time : Text) : Option Text → Text
  | some zone => time ++ " (".toList ++ zone ++ [')']
  | none => time

def renderWhen (props : List Property) : Option Text :=
  let stop := (first props "DTEND").or (first props "DUE")
  let lasting (whenText : Text) : Text :=
    match stop, first props "DURATION" with
    | none, some duration => whenText ++ ", lasting ".toList ++ Text.trim duration.value
    | _, _ => whenText
  match first props "DTSTART", stop with
  | some start, some stop =>
    let (startTime, startZone) := renderTime start
    let (endTime, endZone) := renderTime stop
    if startZone = endZone then some (withZone (startTime ++ " – ".toList ++ endTime) startZone)
    else some (withZone startTime startZone ++ " – ".toList ++ withZone endTime endZone)
  | some only, none | none, some only =>
    let (time, zone) := renderTime only
    some (lasting (withZone time zone))
  | none, none => none

/-- What stands behind `mailto:`, in any case. -/
def stripMailto (value : Text) : Text :=
  match firstBytes 7 value with
  | some scheme => if scheme.map Char.toLower = "mailto:".toList then value.drop 7 else value
  | none => value

def renderPerson (prop : Property) : Text :=
  let address := Text.trim (stripMailto prop.text)
  let name := ((prop.param "CN".toList).map Text.trim).filter fun name => !name.isEmpty
  let person :=
    match name with
    | some name => if address ≠ [] ∧ name ≠ address then name ++ " <".toList ++ address ++ ['>'] else name
    | none => address
  match prop.param "PARTSTAT".toList with
  | some status =>
    person ++ " (".toList ++ (status.map Char.toLower).map (fun c => if c = '-' then ' ' else c) ++ [')']
  | none => person

/-! ## Calendars -/

def heading (kind : Text) (index total : Nat) : Text :=
  kind ++ ' ' :: Nat.toDigits 10 index ++ " of ".toList ++ Nat.toDigits 10 total

def pushSome (noun : String) : Option Text → List Piece
  | some value => pushField [word noun] value
  | none => []

def pushFirst (props : List Property) (name noun : String) : List Piece :=
  pushSome noun ((first props name).map Property.text)

def kindNoun (kind : Text) : Text := if kind = "VTODO".toList then "Task".toList else "Event".toList

def renderItem (props : List Property) : List Piece :=
  let summary := ((first props "SUMMARY").map Property.text).filter fun summary => !isBlank summary
  pushField [word "Summary"] (summary.getD "(untitled)".toList) ++
    pushSome "When" (renderWhen props) ++
    pushFirst props "LOCATION" "Where" ++
    pushSome "Organizer" ((first props "ORGANIZER").map renderPerson) ++
    (named props "ATTENDEE").flatMap (fun attendee => pushField [word "Attendee"] (renderPerson attendee)) ++
    pushFirst props "STATUS" "Status" ++
    (named props "RRULE").flatMap (fun rule => pushField [word "Repeats"] rule.value) ++
    pushFirst props "URL" "URL" ++
    pushFirst props "DESCRIPTION" "Description"

def calendarItems (properties : List Property) : List (Text × List Property) :=
  components properties ["VEVENT".toList, "VTODO".toList]

def renderCalendarHead (properties : List Property) : List Piece :=
  let calendarProps := (components properties ["VCALENDAR".toList]).flatMap Prod.snd
  let name := ((first calendarProps "X-WR-CALNAME").map Property.text).filter fun name => !isBlank name
  (match name with
  | some name => pushField [word "Calendar"] name
  | none => [word "Calendar\n"]) ++
    pushFirst calendarProps "METHOD" "Method"

def renderCalendar (properties : List Property) : List Piece :=
  let items := calendarItems properties
  renderCalendarHead properties ++
    if items = [] then [word "\nNo events.\n"]
    else
      items.zipIdx.flatMap fun (item, index) =>
        [word "\n", .own (heading (kindNoun item.1) (index + 1) items.length ++ ['\n'])] ++ renderItem item.2

/-! ## Contacts -/

def droppedCardProperties : List Text := ["PHOTO", "LOGO", "SOUND", "KEY", "PRODID", "REV", "UID"].map String.toList

/-- What stands between the marks of a built-in label. -/
def appleLabel (raw : Text) : Text :=
  let trimmed := Text.trim raw
  if "_$!<".toList.isPrefixOf trimmed then
    (Text.stripSuffix ">!$_".toList (trimmed.drop 4)).getD trimmed
  else trimmed

/-- The labels of the groups, one for each `X-ABLABEL` in a group. -/
def groupLabels (props : List Property) : List (Text × Text) :=
  (named props "X-ABLABEL").filterMap fun prop => prop.group.map fun group => (group, appleLabel prop.text)

def uninformativeTypes : List Text := ["INTERNET", "PREF", "X400"].map String.toList

def typeLabels (prop : Property) : List Text :=
  ((prop.paramValues "TYPE".toList).filter fun kind => !uninformativeTypes.contains (kind.map Char.toUpper)).map
    fun kind => kind.map Char.toLower

/-- The label of the group that the property is in. -/
def groupLabel (prop : Property) (labels : List (Text × Text)) : Option Text :=
  ((prop.group.bind fun group => labels.find? fun entry => entry.1 == group).map Prod.snd).filter fun label => !label.isEmpty

def cardLabel (prop : Property) (labels : List (Text × Text)) : Option Text :=
  match groupLabel prop labels with
  | some label => some label
  | none =>
    let types := typeLabels prop
    if types = [] then none else some (", ".toList.intercalate types)

def renderStructuredName (prop : Property) : Text :=
  let part (index : Nat) : Text := prop.components.getD index []
  joinNonempty [part 3, part 1, part 2, part 0, part 4] " "

/-- The properties of a card that are rendered. -/
def keptProperties (props : List Property) : List Property :=
  props.filter fun prop =>
    !prop.isBase64 && !"X-".toList.isPrefixOf prop.name && !droppedCardProperties.contains prop.name

def replaceFeeds (value : Text) : Text := value.flatMap fun c => if c = '\n' then ", ".toList else [c]

def contactValue (prop : Property) : Text :=
  if prop.name = "ADR".toList then joinNonempty prop.components ", " else prop.text

def fieldLabel (noun : String) : Option Text → List Piece
  | some label => [word noun, word " (", .content label, word ")"]
  | none => [word noun]

def renderContact (labels : List (Text × Text)) (noun : String) (prop : Property) : List Piece :=
  pushField (fieldLabel noun (cardLabel prop labels)) (replaceFeeds (contactValue prop))

/-- The properties that are shown with their labels. -/
def labelledFields : List (String × String) := [("TEL", "Phone"), ("EMAIL", "Email"), ("ADR", "Address"), ("URL", "URL")]

def renderCard (allProps : List Property) : List Piece :=
  let labels := groupLabels allProps
  let props := keptProperties allProps
  let name := (((first props "FN").map Property.text).filter fun name => !isBlank name).or
    ((first props "N").map renderStructuredName)
  pushSome "Name" name ++
    pushSome "Organization" ((first props "ORG").map fun org => joinNonempty org.components ", ") ++
    pushFirst props "TITLE" "Title" ++
    labelledFields.flatMap (fun (property, noun) => (named props property).flatMap (renderContact labels noun)) ++
    pushFirst props "BDAY" "Birthday" ++
    pushFirst props "CATEGORIES" "Categories" ++
    pushFirst props "NOTE" "Note"

def renderBlock (props : List Property) : List Piece :=
  if written (renderCard props) = [] then [word "(no details)\n"] else renderCard props

def renderCards (properties : List Property) : List Piece :=
  let cards := components properties ["VCARD".toList]
  cards.zipIdx.flatMap fun (card, index) =>
    (if 0 < index then [word "\n"] else []) ++
      [.own (heading "Contact".toList (index + 1) cards.length ++ ['\n'])] ++ renderBlock card.2

end Pigeon.Transform.VObject

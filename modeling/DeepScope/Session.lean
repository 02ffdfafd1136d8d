import DeepScope.StyleSheet.Edit
import DeepScope.StyleSheet.Reader
import DeepScope.StyleSheet.Scope
import DeepScope.StyleSheet.Writer

namespace DeepScope

/-- One step of a session. -/
inductive Step where
  | parse (text : String)
  | append (text : String)
  | load (sheet : StyleSheet)
  | renew
  | remove (index : Nat)
  | scope
  | serialize (options : WriteOptions)
  | tree
  | reparse (options : WriteOptions)
  | save
  | equal
  | styleRules
  | insert (rule index place : Nat) (member : Member)
deriving DecidableEq, Repr

/-- The answer to a step. -/
inductive Answer where
  /-- The charset of the stylesheet, and how many rules it has outermost. -/
  | shape (charset : Option String) (rules : Nat)
  | error (reason : Error)
  | counts (changed kept : Nat)
  | text (text : String)
  | sheet (sheet : StyleSheet)
  | reread (charset : Option String) (same : Bool)
  | saved
  | verdict (holds : Bool)
  | rules (rules : List StyleRule)
  | nothing
  | outOfRange
deriving DecidableEq, Repr

/-- A session: the stylesheet, and the copy saved last. -/
structure Session where
  sheet : StyleSheet
  copy : StyleSheet
deriving DecidableEq, Repr

namespace Session

/-- A new session, on the empty stylesheet. -/
def start : Session := ⟨.empty, .empty⟩

/-- Goes on with another stylesheet, and tells its shape. -/
def become (session : Session) (sheet : StyleSheet) : Answer × Session :=
  (.shape sheet.charset sheet.rules.length, { session with sheet := sheet })

/-- Takes one step. A step that fails leaves the stylesheet as it is. -/
def step (session : Session) : Step → Answer × Session
  | .parse text =>
    match StyleSheet.parse text with
    | .error e => (.error e, session)
    | .ok sheet => session.become sheet
  | .append text =>
    match StyleSheet.parse text with
    | .error e => (.error e, session)
    | .ok sheet => session.become (session.sheet.append sheet.rules)
  | .load sheet => session.become sheet
  | .renew => session.become (.ofRules session.sheet.rules)
  | .remove index => session.become (session.sheet.removeRule index)
  | .scope =>
    let (sheet, report) := session.sheet.scope
    (.counts report.changed report.kept, { session with sheet := sheet })
  | .serialize options => (.text (session.sheet.serialize options), session)
  | .tree => (.sheet session.sheet, session)
  | .reparse options =>
    match StyleSheet.parse (session.sheet.serialize options) with
    | .error e => (.error e, session)
    | .ok sheet =>
      (.reread sheet.charset (sheet.rules = session.sheet.rules), { session with sheet := sheet })
  | .save => (.saved, { session with copy := session.sheet })
  | .equal => (.verdict (session.sheet = session.copy), session)
  | .styleRules => (.rules session.sheet.styleRules, session)
  | .insert rule index place member =>
    match session.sheet.insertMember rule index place member with
    | .noSelector => (.nothing, session)
    | .outOfRange => (.outOfRange, session)
    | .done selector sheet => (.text selector.text, { session with sheet := sheet })

/-- The answers to steps in order. -/
def answers (session : Session) : List Step → List Answer
  | [] => []
  | first :: rest =>
    let (answer, next) := session.step first
    answer :: next.answers rest

end Session

end DeepScope

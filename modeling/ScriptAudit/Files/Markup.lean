import ScriptAudit.Text.Blank
import ScriptAudit.Text.Case
import ScriptAudit.Text.Lines
import ScriptAudit.Text.Search

/-!
# Scripts in pages

Finds the script elements of an HTML page. Only what decides where a script starts and ends is read.
Names of tags and attributes are compared in small letters, and the content of a script is taken as
it stands.
-/

namespace ScriptAudit

structure ScriptElement where
  attributes_ : List (String × String)
  content : String
  deriving DecidableEq, Repr

namespace Markup

def isSeparator (c : Char) : Bool :=
  c == ' ' || c == '\t' || c == '\n' || c == '\r' || c == '\x0c'

def skipSeparators (cs : List Char) : List Char :=
  cs.dropWhile isSeparator

def endsName (c : Char) : Bool :=
  isSeparator c || c == '/' || c == '>'

def nameText (cs : List Char) : String :=
  Text.lower (String.ofList cs)

def attributeValue : List Char → List Char × List Char
  | '"' :: rest => let (v, r) := rest.span (· != '"'); (v, r.drop 1)
  | '\'' :: rest => let (v, r) := rest.span (· != '\''); (v, r.drop 1)
  | cs => cs.span fun c => !(isSeparator c || c == '>')

def valueAfterName (cs : List Char) : List Char × List Char :=
  match skipSeparators cs with
  | '=' :: rest => attributeValue (skipSeparators rest)
  | rest => ([], rest)

structure TagRest where
  attributes_ : List (String × String)
  closed : Bool
  after : List Char

def readTag : Nat → List (String × String) → List Char → TagRest
  | 0, seen, cs => ⟨seen.reverse, false, cs⟩
  | fuel + 1, seen, cs =>
    match skipSeparators cs with
    | [] => ⟨seen.reverse, false, []⟩
    | '>' :: rest => ⟨seen.reverse, false, rest⟩
    | '/' :: '>' :: rest => ⟨seen.reverse, true, rest⟩
    | '/' :: rest => readTag fuel seen rest
    | c :: rest =>
      let (more, r) := rest.span fun d => !(endsName d || d == '=')
      let (value, r) := valueAfterName r
      readTag fuel ((nameText (c :: more), String.ofList value) :: seen) r

def startsEndTag (name : String) (cs : List Char) : Bool :=
  let tag := cs.take (name.length + 2)
  nameText tag == "</" ++ name && ((cs.drop (name.length + 2)).head?.map endsName).getD true

def rawContent (name : String) : List Char → List Char × List Char
  | [] => ([], [])
  | c :: rest =>
    if startsEndTag name (c :: rest) then ([], c :: rest)
    else
      let (content, r) := rawContent name rest
      (c :: content, r)

def rawNames : List String :=
  ["script", "style", "textarea", "title", "xmp", "iframe", "noembed", "noframes"]

def afterTag (cs : List Char) : List Char :=
  (cs.dropWhile (· != '>')).drop 1

def afterComment (cs : List Char) : List Char :=
  match Text.cut? ['-', '-', '>'] cs with
  | some (_, rest) => rest
  | none => []

def isLetter (c : Char) : Bool :=
  ('a' ≤ c && c ≤ 'z') || ('A' ≤ c && c ≤ 'Z')

def scriptsWithin : Nat → List Char → List ScriptElement
  | 0, _ => []
  | fuel + 1, cs =>
    match cs.dropWhile (· != '<') with
    | '<' :: '!' :: '-' :: '-' :: rest => scriptsWithin fuel (afterComment ('-' :: '-' :: rest))
    | '<' :: '!' :: rest => scriptsWithin fuel (afterTag rest)
    | '<' :: '?' :: rest => scriptsWithin fuel (afterTag rest)
    | '<' :: '/' :: rest => scriptsWithin fuel (afterTag rest)
    | '<' :: c :: rest =>
      if isLetter c then
        let (more, r) := rest.span fun d => !endsName d
        let name := nameText (c :: more)
        let tag := readTag r.length [] r
        if tag.closed || !rawNames.contains name then scriptsWithin fuel tag.after
        else
          let (content, r) := rawContent name tag.after
          let others := scriptsWithin fuel r
          if name == "script" then ⟨tag.attributes_, String.ofList content⟩ :: others else others
      else scriptsWithin fuel (c :: rest)
    | _ => []

def scripts (html : String) : List ScriptElement :=
  let cs := Text.unifyNewlines html.toList
  scriptsWithin (cs.length + 1) cs

end Markup

def ScriptElement.get (e : ScriptElement) (name : String) : String :=
  (e.attributes_.lookup name).getD ""

def ScriptElement.language (e : ScriptElement) : String :=
  Text.lower (Text.trim (e.get "type"))

def scriptLanguages : List String :=
  ["", "text/javascript", "application/javascript", "application/x-javascript", "text/ecmascript",
    "application/ecmascript", "module"]

def ScriptElement.isInline (e : ScriptElement) : Bool :=
  (e.get "src").isEmpty && scriptLanguages.contains e.language && !Text.isBlankText e.content

end ScriptAudit

import Folio.Yaml.Node
import Folio.Yaml.Scanner

set_option autoImplicit false

/-!
# Reading YAML

The tokens of a text are those of one document, perhaps between its markers and after directives. Its
node is a scalar, a reference, or a collection by indentation or in brackets; before it may stand an
anchor and a tag. Where a node has to stand and nothing is written, it is null.
-/
namespace Folio.Yaml
namespace Reader

abbrev Found := Node × List Token

inductive Setting where
  | brackets
  | block
  /-- A part of an entry by indentation: it may be a sequence in the column of the entry. -/
  | entryPart
deriving DecidableEq, Repr

abbrev ReadsNode := Setting → List Token → Option Found

def orNull? (stops : List Token) (node? : List Token → Option Found) : List Token → Option Found
  | [] => none
  | t :: ts => if stops.contains t then some (.null, t :: ts) else node? (t :: ts)

abbrev Handles := List (Text × Text)

def standardHandles : Handles := [("!", "!"), ("!!", standardTag [])]

def wholeTag? (handles : Handles) (t : Tag) : Option Text :=
  if t.handle.isEmpty then some t.ending else (handles.lookup t.handle).map (· ++ t.ending)

def marks : List Token → Option Nat × Option Tag × List Token
  | .anchor number :: .tag t :: ts => (some number, some t, ts)
  | .tag t :: .anchor number :: ts => (some number, some t, ts)
  | .anchor number :: ts => (some number, none, ts)
  | .tag t :: ts => (none, some t, ts)
  | ts => (none, none, ts)

def withAnchor : Option Nat → Node → Node
  | some number, n => .anchored number n
  | none, n => n

def items? (node? : ReadsNode) : Nat → List Token → Option (List Node × List Token)
  | 0, _ => none
  | fuel + 1, .item :: ts => do
    let (n, ts) ← orNull? [.item, .blockEnd] (node? .block) ts
    (items? node? fuel ts).map fun (ns, ts) => (n :: ns, ts)
  | _ + 1, .blockEnd :: ts => some ([], ts)
  | _ + 1, _ => none

/-- The items of a sequence in the column of the entry that it belongs to; anything else ends it. -/
def looseItems? (node? : ReadsNode) : Nat → List Token → Option (List Node × List Token)
  | 0, _ => none
  | fuel + 1, .item :: ts => do
    let (n, ts) ← orNull? [.item, .key, .value, .blockEnd] (node? .block) ts
    (looseItems? node? fuel ts).map fun (ns, ts) => (n :: ns, ts)
  | _ + 1, ts => some ([], ts)

def entryPart? (node? : ReadsNode) : List Token → Option Found :=
  orNull? [.key, .value, .blockEnd] (node? .entryPart)

def pairs? (node? : ReadsNode) : Nat → List Token → Option (List (Node × Node) × List Token)
  | 0, _ => none
  | fuel + 1, .key :: ts => do
    let (key, ts) ← entryPart? node? ts
    let (value, ts) ←
      match ts with
      | .value :: ts => entryPart? node? ts
      | ts => some (.null, ts)
    (pairs? node? fuel ts).map fun (ps, ts) => ((key, value) :: ps, ts)
  | _ + 1, .blockEnd :: ts => some ([], ts)
  | _ + 1, _ => none

def flowValue? (node? : ReadsNode) (close : Token) : List Token → Option Found
  | .value :: ts => orNull? [.comma, close] (node? .brackets) ts
  | ts => some (.null, ts)

/-- A single pair among the items of a sequence. Where its key is not written, the token that shows
    this is passed over. -/
def itemPair? (node? : ReadsNode) (ts : List Token) : Option Found := do
  let stops : List Token := [.value, .comma, .closeSequence]
  let (key, ts) ←
    match ts with
    | [] => none
    | t :: ts => if stops.contains t then some (.null, ts) else node? .brackets (t :: ts)
  (flowValue? node? .closeSequence ts).map fun (value, ts) => (.mapping [(key, value)], ts)

def flowPair? (node? : ReadsNode) : List Token → Option ((Node × Node) × List Token)
  | .key :: ts => do
    let (key, ts) ← orNull? [.value, .comma, .closeMapping] (node? .brackets) ts
    (flowValue? node? .closeMapping ts).map fun (value, ts) => ((key, value), ts)
  | ts => (node? .brackets ts).map fun (key, ts) => ((key, .null), ts)

def flowItem? (node? : ReadsNode) : List Token → Option Found
  | .key :: ts => itemPair? node? ts
  | ts => node? .brackets ts

/-- What stands between brackets, up to the closing one, with commas between; the last may have a comma
    after it. -/
def enclosed? {α : Type} (part? : List Token → Option (α × List Token)) (close : Token) :
    Nat → List Token → Option (List α × List Token)
  | 0, _ => none
  | _, [] => none
  | fuel + 1, t :: ts =>
    if t = close then some ([], ts)
    else do
      let (a, ts) ← part? (t :: ts)
      match ts with
      | .comma :: ts => (enclosed? part? close fuel ts).map fun (as, ts) => (a :: as, ts)
      | t :: ts => if t = close then some ([a], ts) else none
      | [] => none

def startsContent (setting : Setting) : Token → Bool
  | .scalar _ _ | .openSequence | .openMapping => true
  | .sequenceStart | .mappingStart => setting ≠ .brackets
  | .item => setting = .entryPart
  | _ => false

/-- What stands after an anchor and a tag. A scalar that is written takes no tag from `!` alone. -/
def content? (node? : ReadsNode) (tag : Option Text) : List Token → Option Found
  | .scalar style s :: ts => some (.scalar style (tag.filter (· ≠ "!")) s, ts)
  | .openSequence :: ts =>
    (enclosed? (flowItem? node?) .closeSequence (ts.length + 1) ts).map fun (ns, ts) =>
      (.sequence ns, ts)
  | .openMapping :: ts =>
    (enclosed? (flowPair? node?) .closeMapping (ts.length + 1) ts).map fun (ps, ts) => (.mapping ps, ts)
  | .sequenceStart :: ts =>
    (items? node? (ts.length + 1) ts).map fun (ns, ts) => (.sequence ns, ts)
  | .mappingStart :: ts =>
    (pairs? node? (ts.length + 1) ts).map fun (ps, ts) => (.mapping ps, ts)
  | .item :: ts =>
    (looseItems? node? (ts.length + 2) (.item :: ts)).map fun (ns, ts) => (.sequence ns, ts)
  | _ => none

/-- A node. One that is not written has an anchor or a tag, at least. Each step into a node takes a
    token. -/
def node? (handles : Handles) : Nat → ReadsNode
  | 0, _, _ => none
  | _ + 1, _, .reference anchor :: ts => some (.reference anchor, ts)
  | fuel + 1, setting, ts => do
    let (anchor, written, ts) := marks ts
    let tag ← written.elim (some none) fun t => (wholeTag? handles t).map some
    let (n, ts) ←
      if ts.head?.any (startsContent setting) then content? (node? handles fuel) tag ts
      else if anchor.isSome || tag.isSome then some (.scalar .plain tag [], ts)
      else none
    some (withAnchor anchor n, ts)

def directives? (versions : List Nat) (handles : Handles) :
    List Token → Option (Handles × List Token)
  | .version major minor :: ts =>
    if major = 1 && versions.contains minor then directives? [] handles ts else none
  | .handle name expansion :: ts =>
    if (handles.lookup name).isSome then none
    else directives? versions ((name, expansion) :: handles) ts
  | ts => some (handles ++ standardHandles, ts)

def knownVersions : List Nat := [1, 2]

def endsDocument : Token → Bool
  | .version _ _ | .handle _ _ | .documentStart | .documentEnd => true
  | _ => false

/-- The node of a document. Directives need the marker of the start, after which there may be nothing. -/
def document? (ts : List Token) : Option Found :=
  match directives? knownVersions [] ts with
  | some (handles, .documentStart :: ts) =>
    if ts.head?.all endsDocument then some (.null, ts) else node? handles (ts.length + 1) .block ts
  | _ =>
    if ts.isEmpty then some (.null, []) else node? standardHandles (ts.length + 1) .block ts

def unifyBreaks : Text → Text
  | '\r' :: '\n' :: s => '\n' :: unifyBreaks s
  | c :: s => (if c = '\r' || c = '\u0085' then '\n' else c) :: unifyBreaks s
  | [] => []

def isPrintable (c : Char) : Bool :=
  c = '\t' || c = '\n' || (0x20 ≤ c.toNat && c.toNat ≤ 0x7E) ||
    (0xA0 ≤ c.toNat && c ≠ '\uFFFE' && c ≠ '\uFFFF')

end Reader

def read? (s : Text) : Option Yaml := do
  let s := Reader.unifyBreaks s
  if !s.all Reader.isPrintable then none
  let (n, ts) ← (tokens? s).bind Reader.document?
  if ts.all (· = .documentEnd) then some (n.value (n.targets [])) else none

end Folio.Yaml

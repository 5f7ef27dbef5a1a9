import ArchiveKeeper.Yaml.Property
import ArchiveKeeper.Yaml.Scalar
import ArchiveKeeper.Yaml.Tag

namespace ArchiveKeeper.Yaml

open Reading

/-- Where a node stands: in a block, on a line of its own or not, or inside or right outside of
brackets. -/
inductive Context where
  | flowIn
  | flowOut
  | blockIn
  | blockOut
deriving DecidableEq, Repr

def Context.isBlock : Context → Bool
  | .blockIn | .blockOut => true
  | _ => false

/-- How the type of a node is found. -/
inductive Label where
  | none
  /-- By the way a plain scalar is written. -/
  | plain
  | given (name : String)
deriving DecidableEq, Repr

def Label.ofTag : Option String → Label
  | Option.none => .none
  | some name => if name = "?" then .plain else .given name

/-- A node, or null where there is none. -/
structure Found where
  node : Node
  kind? : Option Kind
  /-- Whether there is anything: a node, or a property of one. -/
  present : Bool
  /-- Whether the node is the key that asks for merging. -/
  isMerge : Bool
deriving Inhabited

structure Content where
  node : Node
  kind? : Option Kind
  props : Properties
  label : Label
  /-- Whether there is a node. -/
  there : Bool

namespace Content

def collection (props : Properties) (kind : Kind) (n : Node) : Content :=
  ⟨n, some kind, props, .ofTag props.tag?, true⟩

def scalar (props : Properties) (s : Json.Text) : Content :=
  ⟨.text s, some .scalar, props, .ofTag props.tag?, true⟩

def plain (props : Properties) (s : Json.Text) : Content :=
  ⟨.text s, some .scalar, props, if props.tag?.isNone then .plain else .ofTag props.tag?, true⟩

def single (props : Properties) (f : Found) : Content :=
  ⟨f.node, f.kind?, props, .ofTag props.tag?, true⟩

def nothing (props : Properties) : Content := ⟨.null, none, props, .ofTag props.tag?, false⟩

def found? (c : Content) : Option Found :=
  let found (n : Node) (isMerge : Bool) : Found :=
    ⟨n, c.kind?, c.there || c.label ≠ .none || c.props.anchor?.isSome, isMerge⟩
  match c.label with
  | .none => some (found c.node false)
  | .plain =>
    match c.node with
    | .null => some (found .null false)
    | .text s =>
      let (tag?, n) := Tag.resolve s
      some (found n (tag? == some .merge))
    | n => if c.kind? = some .scalar then some (found n false) else none
  | .given name =>
    if name = "!" then some (found c.node false)
    else do
      let tag ← Tag.ofName? name
      if c.kind?.any (· ≠ tag.kind) then none
      let n ← if c.node.isNull then tag.ofNothing? else tag.ofNode? c.node
      return found n (tag == .merge)

end Content

/-- What is found where a block mapping may stand. -/
inductive Attempt where
  | mapping (n : Node)
  /-- A single node that is the key of nothing. -/
  | single (f : Found)
  | nothing
  /-- Nothing, and the properties in front do not count any more. -/
  | void

structure Pairs where
  members : Members
  key : Node
  isMerge : Bool
  /-- Whether a key that was announced by a mark waits for its value. -/
  announced : Bool
  /-- Whether there is anything that makes it a mapping. -/
  detected : Bool

namespace Pairs

def start : Pairs := ⟨.empty, .null, false, false, false⟩

def store? (p : Pairs) (value : Node) : Option Pairs :=
  (p.members.store? p.isMerge p.key value).map fun m =>
    { p with members := m, key := .null, isMerge := false }

def settle? (p : Pairs) : Option Pairs := if p.announced then p.store? .null else some p

end Pairs

/-- The properties in front of a node, and what is known behind them: how the node is indented in
comparison with its parent, whether it starts a line, and whether it may be a block collection. -/
def properties (parent : Int) (block : Bool) (props : Properties) (order : Ordering)
    (newLine collections : Bool) : Nat → Reading (Properties × Ordering × Bool × Bool)
  | 0 => refuse
  | fuel + 1 => do
    match ← property? props with
    | none => return (props, order, newLine, collections)
    | some props =>
      if (← separate true) > 0 then
        let order := compare ((← place).indent : Int) parent
        properties parent block props order true block fuel
      else properties parent block props order newLine false fuel

def isIndicator (c : Char) : Reading Bool := do
  return (← peek) == c && isBlank (← peekNext)

mutual

/-- The node at a place whose parent is indented by `parent` columns. -/
def nodeAt (parent : Int) (context : Context) (seek compact : Bool) : Nat → Reading Found
  | 0 => refuse
  | fuel + 1 => do
    let block := context.isBlock
    let breaks ← if seek then separate true else pure 0
    let newLine := 0 < breaks
    let here ← place
    let order := if newLine then compare (here.indent : Int) parent else .gt
    let (props, order, newLine, collections) ←
      if order == .gt then
        properties parent block .none order newLine block ((← read).size + 1)
      else pure (.none, order, newLine, block)
    let collections := collections && (newLine || compact)
    let inner : Nat := (if block then parent + 1 else parent).toNat
    let here ← place
    let column := here.at_ - here.lineStart
    let c ←
      if order == .gt then contentAt context inner column collections props fuel
      else if order == .eq && context == .blockOut && collections then do
        match ← sequenceAt props.anchor? column fuel with
        | some n => pure (Content.collection props .sequence n)
        | none => pure (Content.nothing props)
      else pure (Content.nothing props)
    let f ← ofOption c.found?
    setAnchor c.props.anchor? f.node
    return f
termination_by structural fuel => fuel

def contentAt (context : Context) (inner column : Nat) (collections : Bool) (props : Properties) :
    Nat → Reading Content
  | 0 => refuse
  | fuel + 1 => do
    let sequence? ← if collections then sequenceAt props.anchor? column fuel else pure none
    match sequence? with
    | some n => return .collection props .sequence n
    | none =>
      let attempt ←
        if collections then mappingAt props.anchor? column inner fuel else pure Attempt.nothing
      match attempt with
      | .mapping n => return .collection props .mapping n
      | .single f => return .single props f
      | .nothing => flowOrScalarAt context inner props fuel
      | .void => flowOrScalarAt context inner .none fuel
termination_by structural fuel => fuel

def flowOrScalarAt (context : Context) (inner : Nat) (props : Properties) : Nat → Reading Content
  | 0 => refuse
  | fuel + 1 => do
    match ← flowAt props.anchor? inner fuel with
    | some (kind, n) => return .collection props kind n
    | none =>
      let block ← if context.isBlock then block? inner else pure none
      let quoted ← match block with
        | some s => pure (some s)
        | none => match ← single? with
          | some s => pure (some s)
          | none => double?
      match quoted with
      | some s => return .scalar props s
      | none =>
        match ← alias? with
        | some n =>
          require (props.tag?.isNone && props.anchor?.isNone)
          return ⟨n, none, props, .none, true⟩
        | none =>
          match ← plain? inner (context == .flowIn) with
          | some s => return .plain props s
          | none => return .nothing props
termination_by structural fuel => fuel

/-- A block sequence whose marks stand in a column, if one starts here. -/
def sequenceAt (anchor? : Option String) (column : Nat) : Nat → Reading (Option Node)
  | 0 => refuse
  | fuel + 1 => do
    if (← place).tab?.isSome then return none
    else
      setAnchor anchor? .enclosing
      if ← isIndicator '-' then return some (.sequence (← itemsAt column fuel)) else return none
termination_by structural fuel => fuel

def itemsAt (column : Nat) : Nat → Reading (List Node)
  | 0 => refuse
  | fuel + 1 => do
    if (← peek) == ending then return []
    else
      require (← place).tab?.isNone
      if !(← isIndicator '-') then return []
      else
        advance 1
        if (← separate true) > 0 && (← place).indent ≤ column then
          return .null :: (← itemsAt column fuel)
        else
          let line := (← place).line
          let f ← nodeAt column .blockIn false true fuel
          let _ ← separate true
          let p ← place
          require (!((p.line == line || p.indent > column) && (← peek) ≠ ending))
          if p.indent < column then return [f.node]
          else return f.node :: (← itemsAt column fuel)
termination_by structural fuel => fuel

/-- A block mapping whose keys stand in a column, if one starts here. -/
def mappingAt (anchor? : Option String) (column inner : Nat) : Nat → Reading Attempt
  | 0 => refuse
  | fuel + 1 => do
    if (← place).tab?.isSome then return .nothing
    else
      setAnchor anchor? .enclosing
      if (← peek) == ending then return .nothing else pairsAt column inner .start fuel
termination_by structural fuel => fuel

def pairsAt (column inner : Nat) (p : Pairs) : Nat → Reading Attempt
  | 0 => refuse
  | fuel + 1 => do
    let close (p : Pairs) : Reading Attempt := do
      let p ← ofOption p.settle?
      return if p.detected then .mapping (.mapping p.members.all) else .void
    if (← peek) == ending then close p
    else
      require (p.announced || (← place).tab?.isNone)
      let line := (← place).line
      if ← isIndicator '?' then
        let p ← ofOption p.settle?
        advance 1
        valueAt column inner line true { p with detected := true, announced := true } fuel
      else if ← isIndicator ':' then
        require p.announced
        advance 1
        valueAt column inner line true { p with announced := false } fuel
      else
        let f ← nodeAt inner .flowOut false true fuel
        if !f.present then close p
        else if (← place).line ≠ line then
          require (!p.detected)
          return .single f
        else
          pass isSpace
          if (← peek) == ':' then
            advance 1
            require (isBlank (← peek))
            let p ← ofOption p.settle?
            valueAt column inner line false
              { p with detected := true, announced := false, key := f.node, isMerge := f.isMerge }
              fuel
          else
            require (!p.detected)
            return .single f
termination_by structural fuel => fuel

/-- What follows the mark of a key or of a value in a block mapping. -/
def valueAt (column inner line : Nat) (compact : Bool) (p : Pairs) : Nat → Reading Attempt
  | 0 => refuse
  | fuel + 1 => do
    let f ← nodeAt column .blockOut true compact fuel
    let n := if f.present then f.node else .null
    let p ← if p.announced then pure { p with key := n } else ofOption (p.store? n)
    let _ ← separate true
    let q ← place
    require (!((q.line == line || q.indent > column) && (← peek) ≠ ending))
    if q.indent < column then
      let p ← ofOption p.settle?
      return .mapping (.mapping p.members.all)
    else pairsAt column inner p fuel
termination_by structural fuel => fuel

def flowAt (anchor? : Option String) (inner : Nat) : Nat → Reading (Option (Kind × Node))
  | 0 => refuse
  | fuel + 1 => do
    let c ← peek
    if c == '[' then
      setAnchor anchor? .enclosing
      advance 1
      return some (.sequence, .sequence (← entriesAt inner true fuel))
    else if c == '{' then
      setAnchor anchor? .enclosing
      advance 1
      return some (.mapping, .mapping (← membersAt inner true .empty fuel).all)
    else return none
termination_by structural fuel => fuel

/-- A key in brackets, whether it was announced by a mark, whether it asks for merging, and its
value if it has one. -/
def entryAt (inner : Nat) : Nat → Reading (Found × Bool × Option Node)
  | 0 => refuse
  | fuel + 1 => do
    let announced ← isIndicator '?'
    if announced then
      advance 1
      let _ ← separate true
    let line := (← place).line
    let key ← nodeAt inner .flowIn false true fuel
    let _ ← separate true
    if (announced || (← place).line == line) && (← peek) == ':' then
      advance 1
      let _ ← separate true
      let value ← nodeAt inner .flowIn false true fuel
      let _ ← separate true
      return (key, announced, some value.node)
    else return (key, announced, none)
termination_by structural fuel => fuel

/-- The items in brackets up to the closing one. A comma separates them, and may stand behind the
last. -/
def entriesAt (inner : Nat) (mayGoOn : Bool) : Nat → Reading (List Node)
  | 0 => refuse
  | fuel + 1 => do
    let _ ← separate true
    let c ← peek
    if c == ']' then
      advance 1
      return []
    else
      require (mayGoOn && c ≠ ',' && c ≠ ending)
      let (key, announced, value?) ← entryAt inner fuel
      let item ←
        if announced || value?.isSome then
          Node.mapping <$> Members.all <$>
            ofOption (Members.empty.store? key.isMerge key.node (value?.getD .null))
        else pure key.node
      let comma := (← peek) == ','
      if comma then advance 1
      return item :: (← entriesAt inner comma fuel)
termination_by structural fuel => fuel

def membersAt (inner : Nat) (mayGoOn : Bool) (m : Members) : Nat → Reading Members
  | 0 => refuse
  | fuel + 1 => do
    let _ ← separate true
    let c ← peek
    if c == '}' then
      advance 1
      return m
    else
      require (mayGoOn && c ≠ ',' && c ≠ ending)
      let (key, _, value?) ← entryAt inner fuel
      let m ← ofOption (m.store? key.isMerge key.node (value?.getD .null))
      let comma := (← peek) == ','
      if comma then advance 1
      membersAt inner comma m fuel
termination_by structural fuel => fuel

end

def document : Reading Node := do
  let size := (← read).size
  passIndent
  if size ≤ (← place).at_ + 1 then return .null
  else
    let directed ← directives false (size + 1)
    let _ ← separate true
    let i := (← place).at_
    let opened := (← place).indent == 0 && (← slice i (i + 3)) == ['-', '-', '-']
    if opened then
      advance 3
      let _ ← separate true
    require (opened || !directed)
    let f ← nodeAt ((← place).indent - 1) .blockOut false true (20 * size + 100)
    let _ ← separate true
    if (← atLineStart) && (← atSeparator) && (← peek) == '.' then
      advance 3
      let _ ← separate true
    require (size ≤ (← place).at_ + 1)
    return f.node

/-- The characters of a text without a byte order mark, and with a line end behind them. -/
def prepared (s : String) : List Char :=
  let cs := s.toList
  let ended := match cs.getLast? with
    | none => []
    | some c => if isBreak c then cs else cs ++ ['\n']
  match ended with
  | '\uFEFF' :: rest => rest
  | cs => cs

/-- The node that a text consists of, if it is well formed. An empty text is null. -/
def read? (s : String) : Option Node :=
  let cs := prepared s
  if cs.contains ending then none
  else (document.run cs.toArray |>.run ⟨⟨0, 0, 0, 0, none⟩, [], []⟩).map Prod.fst

end ArchiveKeeper.Yaml

import Mathlib.Data.List.Basic

/-! # The plugin's arguments

`mcadGetBrokerPluginInfo` gives the plugin loader a callback that reads the plugin's arguments
and builds the broker from them. The callback starts from `localhost:9487`, one accepted
connection and no region manifest. It tests every argument against the three prefixes `-host`,
`-max-accepted-connection` and `-binary-regions`, each followed somewhere by `=`. A later argument
overrides an earlier one. A `-host` value without `:` is ignored. A connection count that does
not parse ends the process with `Invalid number: ` and the raw value.

* **`StringRef`** — the `llvm::StringRef` operations the callback calls, on the characters of an
  argument.
* **`parseArg`, `pluginArgs`** — one iteration of the argument loop, and the whole loop.
* **`argsMeaning`** — what the arguments mean: the first count that does not parse is an error,
  and otherwise each setting is the last one given, or its default.
* **`pluginArgs_eq_argsMeaning`** — the loop computes that meaning for every argument list. -/

namespace McadBroker

/-! ## (1) `StringRef` -/

/-- The characters of an `llvm::StringRef`. -/
abbrev StringRef := List Char

namespace StringRef

/-- `startswith(Prefix)`. -/
def startswith (s pre : StringRef) : Bool := pre.isPrefixOf s

/-- `contains(C)`. -/
def contains (s : StringRef) (c : Char) : Bool := s.elem c

/-- `split(Separator)`: the characters before the first separator and those after it, or the
whole string and an empty one when the separator does not occur. -/
def split (s : StringRef) (c : Char) : StringRef × StringRef :=
  (s.takeWhile (· != c), (s.dropWhile (· != c)).drop 1)

/-- The characters `trim()` removes: `" \t\n\v\f\r"`. -/
def isWhitespace (c : Char) : Bool := [' ', '\t', '\n', '\x0b', '\x0c', '\r'].elem c

/-- `trim()`: the string without whitespace at either end. -/
def trim (s : StringRef) : StringRef :=
  ((s.dropWhile isWhitespace).reverse.dropWhile isWhitespace).reverse

end StringRef

/-! ## (2) The argument loop -/

/-- The variables the callback sets before it builds the broker. -/
structure PluginArgs where
  /-- `Addr`, the listening address. -/
  addr : StringRef
  /-- `Port`, the listening port. -/
  port : StringRef
  /-- `MaxNumConn`, the broker's `MaxNumAcceptedConnection`. -/
  maxNumConn : UInt32
  /-- `BRManifestPath`, the region manifest (empty for none). -/
  brManifestPath : StringRef
  deriving DecidableEq, Repr

/-- The values the callback starts from. -/
def PluginArgs.defaults : PluginArgs := ⟨"localhost".toList, "9487".toList, 1, []⟩

section Loop

/- The library's `StringRef::getAsInteger(0, MaxNumConn)` on an `unsigned`: the value, or `none`
where it reports an error. LLVM's sources are not among the repository's, so the parse is a
parameter of the model. -/
variable (getAsInteger : StringRef → Option UInt32)

/-- **One iteration of the argument loop.** The `-host` test sets `Addr` and `Port` from
`ADDR:PORT` when the value holds a `:`. The `-max-accepted-connection` test parses the trimmed
value, and on an error the process exits with the message. The `-binary-regions` test sets the
manifest path. All three tests run on every argument. -/
def parseArg (args : PluginArgs) (arg : StringRef) : Except StringRef PluginArgs := do
  let args :=
    if arg.startswith "-host".toList && arg.contains '=' &&
        (StringRef.split arg '=').2.contains ':' then
      { args with
        addr := (StringRef.split (StringRef.split arg '=').2 ':').1
        port := (StringRef.split (StringRef.split arg '=').2 ':').2 }
    else args
  let args ←
    if arg.startswith "-max-accepted-connection".toList && arg.contains '=' then
      match getAsInteger (StringRef.trim (StringRef.split arg '=').2) with
      | some n => pure { args with maxNumConn := n }
      | none => throw ("Invalid number: ".toList ++ (StringRef.split arg '=').2)
    else pure args
  pure (if arg.startswith "-binary-regions".toList && arg.contains '=' then
    { args with brManifestPath := (StringRef.split arg '=').2 } else args)

/-- The `for` loop over the arguments: an error ends it. -/
def parseArgs : PluginArgs → List StringRef → Except StringRef PluginArgs
  | args, [] => .ok args
  | args, arg :: rest =>
    match parseArg getAsInteger args arg with
    | .ok args => parseArgs args rest
    | .error msg => .error msg

/-- **The plugin's argument parsing**: the settings the broker is built with, or the message the
process exits with. -/
def pluginArgs (argv : List StringRef) : Except StringRef PluginArgs :=
  parseArgs getAsInteger PluginArgs.defaults argv

end Loop

/-! ## (3) What the arguments mean -/

/-- The address and port an argument gives: `-host…=ADDR:PORT`, split at the first `=` and then
at the first `:`. -/
def hostSetting (arg : StringRef) : Option (StringRef × StringRef) :=
  if arg.startswith "-host".toList && arg.contains '=' && (StringRef.split arg '=').2.contains ':'
  then some (StringRef.split (StringRef.split arg '=').2 ':') else none

/-- The raw connection count an argument gives: `-max-accepted-connection…=N`. -/
def countSetting (arg : StringRef) : Option StringRef :=
  if arg.startswith "-max-accepted-connection".toList && arg.contains '='
  then some (StringRef.split arg '=').2 else none

/-- The manifest path an argument gives: `-binary-regions…=PATH`. -/
def manifestSetting (arg : StringRef) : Option StringRef :=
  if arg.startswith "-binary-regions".toList && arg.contains '='
  then some (StringRef.split arg '=').2 else none

/-- The last value that `f` reads from an argument of `argv`, or `d` when none gives one. -/
def lastSetting {α : Type} (f : StringRef → Option α) (d : α) (argv : List StringRef) : α :=
  ((argv.filterMap f).getLast?).getD d

/-- **What the arguments mean**, read from `args` onwards: the first connection count that does
not parse is an error, with its raw value. Otherwise each variable takes the value of the last
argument that sets it, or keeps its value. -/
def argsMeaning (getAsInteger : StringRef → Option UInt32) (args : PluginArgs)
    (argv : List StringRef) : Except StringRef PluginArgs :=
  match (argv.filterMap countSetting).find? fun v => (getAsInteger (StringRef.trim v)).isNone with
  | some v => .error ("Invalid number: ".toList ++ v)
  | none => .ok
    ⟨lastSetting (fun arg => (hostSetting arg).map Prod.fst) args.addr argv,
      lastSetting (fun arg => (hostSetting arg).map Prod.snd) args.port argv,
      lastSetting (fun arg => countSetting arg >>= fun v => getAsInteger (StringRef.trim v))
        args.maxNumConn argv,
      lastSetting manifestSetting args.brManifestPath argv⟩

/-- An argument that gives a value moves the default of the later ones to it. -/
theorem lastSetting_cons {α : Type} (f : StringRef → Option α) (d : α) (arg : StringRef)
    (argv : List StringRef) :
    lastSetting f d (arg :: argv) = lastSetting f ((f arg).getD d) argv := by
  unfold lastSetting
  cases h : f arg with
  | none => simp [h]
  | some a =>
    rw [List.filterMap_cons_some h]
    cases hl : (argv.filterMap f).getLast? with
    | none => simp [List.getLast?_eq_none_iff.mp hl]
    | some b => simp [List.getLast?_cons, hl]

@[simp] theorem lastSetting_nil {α : Type} (f : StringRef → Option α) (d : α) :
    lastSetting f d [] = d := rfl

section Meaning

variable (getAsInteger : StringRef → Option UInt32)

/-- **One argument at a time**: the meaning of `arg :: argv` is the meaning of `argv` read from
what `arg` alone sets, unless `arg` alone is an error. -/
theorem argsMeaning_cons (args : PluginArgs) (arg : StringRef) (argv : List StringRef) :
    argsMeaning getAsInteger args (arg :: argv) =
      (argsMeaning getAsInteger args [arg]).bind (argsMeaning getAsInteger · argv) := by
  cases hc : countSetting arg with
  | none =>
    simp [argsMeaning, hc, lastSetting_cons, Except.bind]
  | some v =>
    cases hg : getAsInteger (StringRef.trim v) with
    | none => simp [argsMeaning, hc, hg, Except.bind]
    | some n => simp [argsMeaning, hc, hg, lastSetting_cons, Except.bind]

/-- An iteration of the loop does what its argument means. -/
theorem parseArg_eq_argsMeaning (args : PluginArgs) (arg : StringRef) :
    parseArg getAsInteger args arg = argsMeaning getAsInteger args [arg] := by
  unfold parseArg argsMeaning lastSetting hostSetting countSetting manifestSetting
  simp only [List.filterMap_cons, List.filterMap_nil]
  generalize (arg.startswith "-host".toList && arg.contains '=' &&
    (StringRef.split arg '=').2.contains ':') = host
  generalize (arg.startswith "-max-accepted-connection".toList && arg.contains '=') = count
  generalize (arg.startswith "-binary-regions".toList && arg.contains '=') = manifest
  -- without a count nothing can fail, and both sides compute the same values
  cases count
  all_goals (cases host <;> cases manifest <;> try rfl)
  -- with one, both sides turn on whether it parses
  all_goals (cases hg : getAsInteger (StringRef.trim (StringRef.split arg '=').2) <;>
    simp only [hg, if_true, if_false, Bool.false_eq_true, bind_pure, bind_pure_comp, map_pure,
      Option.isNone_none, Option.isNone_some, not_false_eq_true, List.find?_cons_of_pos,
      List.find?_cons_of_neg, List.find?_nil, Option.map_none', Option.map_some', List.getLast?_nil,
      List.getLast?_singleton, Option.getD_none, Option.getD_some, Option.bind_eq_bind,
      Option.some_bind] <;> rfl)

/-- The loop, from any values, computes what the arguments mean from them. -/
theorem parseArgs_eq_argsMeaning :
    ∀ (args : PluginArgs) (argv : List StringRef),
      parseArgs getAsInteger args argv = argsMeaning getAsInteger args argv
  | _, [] => rfl
  | args, arg :: argv => by
    rw [parseArgs, argsMeaning_cons, ← parseArg_eq_argsMeaning]
    cases parseArg getAsInteger args arg with
    | error => rfl
    | ok args => exact parseArgs_eq_argsMeaning args argv

/-- **The plugin reads its arguments as their meaning**, for every argument list and every result
of the library's number parse. The callback exits with `Invalid number: ` and the raw value of
the first `-max-accepted-connection` argument whose trimmed value does not parse, even when a
later one would. Otherwise the address, the port, the connection count and the manifest each
take the value of the last argument that sets them: `localhost`, `9487`, `1` and no manifest when
none does. A `-host` argument whose value holds no `:` sets nothing. -/
theorem pluginArgs_eq_argsMeaning (argv : List StringRef) :
    pluginArgs getAsInteger argv = argsMeaning getAsInteger PluginArgs.defaults argv :=
  parseArgs_eq_argsMeaning getAsInteger _ argv

end Meaning

/-- The last `-host` with a port wins; the manifest path is read after the first `=`. -/
example : pluginArgs (fun _ => none)
    ["-host=a:1".toList, "-host=b".toList, "-binary-regions=r=1.json".toList] =
      .ok ⟨"a".toList, "1".toList, 1, "r=1.json".toList⟩ := rfl

/-- A count that does not parse ends the process although a later one parses. -/
example : pluginArgs (fun v => if v = "2".toList then some 2 else none)
    ["-max-accepted-connection= x".toList, "-max-accepted-connection=2".toList] =
      .error "Invalid number:  x".toList := rfl

end McadBroker

import BlockLang.CommandLine.FlagSet
import BlockLang.Settings

/-! Settings from the command line. Every warning and every feature has a flag that turns it on and
one that turns it off, and two more flags speak of all warnings. -/

namespace BlockLang

/-- The entry of a warning among the flags. -/
def Warning.entry (s : Settings) (w : Warning) : GroupEntry :=
  { name := w.name, lead := "W", usage := w.description, enabled := some (s.warning w)
    disabled := some false }

/-- The entry of a feature among the flags. -/
def Feature.entry (s : Settings) (f : Feature) : GroupEntry :=
  { name := f.name, lead := "F", usage := f.description, enabled := some (s.feature f)
    disabled := some false }

namespace Settings

/-- The groups of the warnings and of the features. -/
def groups (s : Settings) : List FlagGroup :=
  [{ name := "Warning Flags", kind := "warning", header := "Available Warnings:"
     entries := Warning.all.map (Warning.entry s) },
   { name := "Feature Flags", kind := "feature", header := "Available Features:"
     entries := Feature.all.map (Feature.entry s) }]

/-- The flags that speak of all warnings. -/
def allFlags : List Flag :=
  [Flag.ofSwitch "Wall" "" false "Enable every warning except 'pedantic'.",
   Flag.ofSwitch "Wno-all" "" false "Disable every warning except 'pedantic'."]

def defineFlags (s : Settings) (f : FlagSet) : Except DefineError FlagSet := do
  let f ← allFlags.foldlM FlagSet.define f
  s.groups.foldlM FlagSet.defineGroup f

/-- What the flags of an entry say, given what was true before: the flag that turns off has the last
word, and each flag may be turned around by its value. -/
def entrySays (f : FlagSet) (e : GroupEntry) (before : Bool) : Bool :=
  if f.isGiven e.offFlag then !f.isOn e.offFlag
  else if f.isGiven e.onFlag then f.isOn e.onFlag
  else before

/-- Obeys the flags that were given. The flags about all warnings come first, whatever their
value. -/
def applyFlagSet (s : Settings) (f : FlagSet) : Settings :=
  let s := if f.isGiven "Wall" then s.setAllWarnings true else s
  let s := if f.isGiven "Wno-all" then s.setAllWarnings false else s
  { s with
    warning := fun w => entrySays f (w.entry s) (s.warning w)
    feature := fun x => entrySays f (x.entry s) (s.feature x) }

end Settings

end BlockLang

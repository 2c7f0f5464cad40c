import StyleModules.Interface
import StyleModules.Sheet.Edit
import StyleModules.Selector.Local
import StyleModules.Pass.Animation

/-!
Marking the local names of a sheet: in selectors, in the names of animations and where animations
are used. Selectors of import and export blocks and of the steps of an animation are left alone.
-/

namespace StyleModules.LocalNames

/-- Mark the selector of a rule that stands in at-rules of the given names. -/
def selector (around : List Text) (s : Text) : Text :=
  if around.any AtHead.isKeyframes || Interface.isImport s || Interface.isExport s then s
  else Selector.markLocal s

/-- Mark the name that an at-rule gives to an animation. -/
def atHead (h : AtHead) : AtHead :=
  if AtHead.isKeyframes h.name then { h with params := Animation.markKeyframes h.params } else h

/-- Mark the animations that a declaration uses. -/
def decl (d : Decl) : Decl :=
  let prop := Text.lower d.prop
  if prop = "animation".toList then { d with value := Animation.mark true d.value }
  else if prop = "animation-name".toList then { d with value := Animation.mark false d.value }
  else d

/-- Mark the animations in a node. -/
def node : Node → Node
  | .atBlock h l b ns => .atBlock (atHead h) l b ns
  | .atStatement h l => .atStatement (atHead h) l
  | .decl d l => .decl (decl d) l
  | n => n

/-- Mark the local names of a sheet. -/
def run (sheet : Stylesheet) : Stylesheet :=
  (sheet.mapSelectors selector).mapNodes node

end StyleModules.LocalNames

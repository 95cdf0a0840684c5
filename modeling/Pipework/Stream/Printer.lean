import Pipework.Argument.Printer
import Pipework.Stream.Basic

/-! The one spelling of a stream: single spaces around `|` and `>`, and channels in short form. -/

namespace Pipework.Stream

def App.render (a : App) : String :=
  Label.render a.label ++ a.name ++ Argument.renderAll a.arguments

def separator (unbound : Bool) : String := if unbound then " || " else " | "

def renderName : Option String → String
  | none => ""
  | some name => name ++ " = "

def renderBody (s : Stream) : String :=
  let apps := (separator s.unbound).intercalate (s.apps.map App.render)
  match s.source, s.sink with
  | some source, some sink =>
    if s.isBridge then source.channel.render ++ " > " ++ sink.channel.render
    else source.channel.render ++ " > " ++ apps ++ " > " ++ sink.channel.render
  | some source, none => source.channel.render ++ " > " ++ apps
  | none, some sink => apps ++ " > " ++ sink.channel.render
  | none, none => apps

def render (s : Stream) : String := renderName s.name ++ s.renderBody

end Pipework.Stream

/-! How host functions are bound to a guest: under which name its memory is exported, and whether a
fault ends the call. A configuration is read from named settings; one that is missing has its
default, one of another kind makes the whole configuration invalid, unknown ones do not matter. -/

namespace HostCall.Binding

structure Config where
  memoryExport : String := "memory"
  trapOnError : Bool := false
deriving DecidableEq

/-- A setting as written. -/
inductive Setting where
  | text (s : String)
  | flag (b : Bool)
  | other

namespace Config

/-- Takes one setting over. -/
def set? (config : Config) (name : String) (setting : Setting) : Option Config :=
  if name = "memory_export" then
    match setting with
    | .text s => some { config with memoryExport := s }
    | _ => none
  else if name = "trap_on_error" then
    match setting with
    | .flag b => some { config with trapOnError := b }
    | _ => none
  else some config

/-- The configuration that `settings` describe. -/
def ofSettings? (settings : List (String × Setting)) : Option Config :=
  settings.foldlM (fun config s => config.set? s.1 s.2) {}

end Config

end HostCall.Binding

import Verilog.Session
import Verilog.Toml.Read

/-!
# Configuration files

A configuration can be read from a TOML document. Settings that are not given keep their defaults,
keys that mean nothing are passed over, and a setting of the wrong kind makes the whole document
invalid.
-/

namespace Verilog

namespace Config

/-- Sets what a key of a document stands for. -/
def setEntry (c : Config) (key : String) (v : Toml.Value) : Option Config :=
  match key with
  | "library" => v.string?.map fun library => { c with library }
  | "include_dirs" => v.strings?.map fun includeDirs => { c with includeDirs }
  | "defines" => v.texts?.map fun texts => { c with defines := ⟨texts⟩ }
  | "use_pp_output_location" => v.boolean?.map fun preprocessedPlaces =>
      { c with preprocessedPlaces }
  | "keep_whitespace" => v.boolean?.map fun keepBlanks => { c with keepBlanks }
  | "fail_fast" => v.boolean?.map fun failFast => { c with failFast }
  | "log_file" => v.string?.map fun path => { c with logFile := some path }
  | "max_queued_log_messages" => v.count?.map fun logCapacity => { c with logCapacity }
  | _ => some c

/-- The configuration in a document. -/
def ofText? (text : String) : Option Config := do
  (← Toml.ofText text).foldlM (fun c e => c.setEntry e.1 e.2) {}

/-- The configuration in the document that stands under a path. -/
def ofText (path text : String) : Except Failure Config :=
  match ofText? text with
  | some c => .ok c
  | none => .error (.badConfig path)

/-- Reads a configuration file. -/
def ofFile (path : String) (files : FileStore) : Except Failure Config :=
  match files.text? path with
  | some text => ofText path text
  | none => .error (.unreadable path)

end Config

end Verilog

import Verilog.Collection.OrderedMap
import Verilog.Text.Path

/-!
# Precompiled packages

Some packages come in files that are known by name. A file is known by its base name; a path that
has none, such as one that ends in two dots, is taken whole.
-/

namespace Verilog

/-- The packages that come precompiled, with the names of their files. -/
structure PrecompiledPackages where
  /-- The file of each package. -/
  packages : OrderedMap String String := {}
  /-- All files that were ever entered. -/
  files : List String := []
  deriving DecidableEq, Repr

namespace PrecompiledPackages

/-- Enters a package. -/
def add (p : PrecompiledPackages) (package file : String) : PrecompiledPackages :=
  ⟨p.packages.insert package file, file :: p.files⟩

/-- The packages that are known from the start. -/
def standard : PrecompiledPackages :=
  (add {} "uvm_pkg" "uvm_pkg.sv").add "ovm_pkg" "ovm_pkg.sv"

/-- The file of a package; empty if the package is not known. -/
def fileName (p : PrecompiledPackages) (package : String) : String :=
  (p.packages.get? package).getD ""

/-- Is a package precompiled? -/
def hasPackage (p : PrecompiledPackages) (package : String) : Bool :=
  p.packages.contains package

/-- Does a path lead to a file of a precompiled package? -/
def hasFile (p : PrecompiledPackages) (path : String) : Bool :=
  p.files.contains (((Path.fileName? path.toList).map String.ofList).getD path)

end PrecompiledPackages

end Verilog

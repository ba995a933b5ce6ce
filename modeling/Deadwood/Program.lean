import Deadwood.AddressRanges
import Deadwood.Architecture

namespace Deadwood

/-- What is known about a program besides its control flow: the machine it runs on, and which
addresses are stubs or belong to the harness. -/
structure Program where
  architecture : Architecture
  stubs : AddressRanges := .empty
  harness : AddressRanges := .empty

namespace Program

def isStub (p : Program) (address : Int) : Bool := p.stubs.contains address

def inHarness (p : Program) (address : Int) : Bool := p.harness.contains address

def describe (p : Program) : String :=
  "Program(architecture=" ++ p.architecture.describe ++ ", stubs=" ++ p.stubs.describe ++
    ", harness=" ++ p.harness.describe ++ ")"

end Program

end Deadwood

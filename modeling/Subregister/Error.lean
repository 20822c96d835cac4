import Subregister.Text

namespace Subregister

namespace Literal

inductive Fault
  | empty
  | leadingSeparator
  | badDigit (radix : Text.Radix)
  | noDigits
  deriving DecidableEq

def Fault.reason : Fault → String
  | empty => "empty literal"
  | leadingSeparator => "digit separator before first digit"
  | badDigit r => "invalid " ++ r.name ++ " digit"
  | noDigits => "missing digits"

end Literal

namespace Designator

inductive Fault
  | empty
  | tooLong
  | unknownLetter
  deriving DecidableEq

def Fault.reason : Fault → String
  | empty => "empty designator"
  | tooLong => "expected at most two size letters"
  | unknownLetter => "unknown size letter"

end Designator

inductive Error
  | literal (text : String) (fault : Literal.Fault)
  | designator (text : String) (fault : Designator.Fault)
  | unsupported (mnemonic : String)
  | missingOperand (mnemonic : String)
  deriving DecidableEq

def Error.message : Error → String
  | literal text fault => "invalid integer literal '" ++ text ++ "': " ++ fault.reason
  | designator text fault => "invalid size designator '" ++ text ++ "': " ++ fault.reason
  | unsupported mnemonic => "unsupported operation '" ++ mnemonic ++ "'"
  | missingOperand mnemonic => "'" ++ mnemonic ++ "' takes two operands, only one was given"

end Subregister

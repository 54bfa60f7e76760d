import Fluxa.Ast

/-! The tokens the parser reads. A number token carries the number that `atol` or `atof` makes of its text, a name has
the at most 255 characters the lexer keeps. The end of the input is a token that is read again and again. -/

namespace Fluxa

open Binary64 (Double)

/-- The tokens that `expect` asks for. -/
inductive Punct where
  | lparen | rparen | lbrace | rbrace | lbracket | rbracket | comma | dot | eq
  deriving DecidableEq, Repr

/-- `token_type_name`. -/
def Punct.text : Punct → String
  | lparen => "(" | rparen => ")" | lbrace => "\x7b" | rbrace => "\x7d" | lbracket => "["
  | rbracket => "]" | comma => "," | dot => "." | eq => "="

/-- The words of the language that are no types. -/
inductive Keyword where
  | fn | return | nil | if | else | while | for | import | block | typeof | prst | free | danger | err
  deriving DecidableEq, Repr

/-- `op` also stands for the minus sign in front of an operand. -/
inductive Token where
  | int (i : Int64)
  | float (d : Double)
  | string (s : String)
  | bool (b : Bool)
  | ident (name : Ident)
  | type (t : TypeName)
  | keyword (k : Keyword)
  | punct (p : Punct)
  | op (op : BinOp)
  | logic (op : LogicOp)
  | not
  | error (msg : String)
  | eof

end Fluxa

/-
  The opcodes of the machine.

  An opcode has an operand class and a number within that class; which
  operation the pair names depends on the story version.  `Opcode.lookup`
  reads a pair, `Opcode.encoding?` gives the pair back.
-/
import ZMachine.Word

namespace ZMachine

/-- Operand class of an opcode, fixed by the form of the instruction. -/
inductive OpcodeClass where
  | op0
  | op1
  | op2
  | varOps
  | ext
deriving DecidableEq, Repr, Inhabited

/-- Name of an operand class. -/
def OpcodeClass.text : OpcodeClass → String
  | op0 => "0OP"
  | op1 => "1OP"
  | op2 => "2OP"
  | varOps => "VAR"
  | ext => "EXT"

/-- An operation of the machine.  `unknown` keeps a pair that names nothing in the story version. -/
inductive Opcode where
  | je
  | jl
  | jg
  | decChk
  | incChk
  | jin
  | test
  | or
  | and
  | testAttr
  | setAttr
  | clearAttr
  | store
  | insertObj
  | loadw
  | loadb
  | getProp
  | getPropAddr
  | getNextProp
  | add
  | sub
  | mul
  | div
  | mod
  | call2S
  | call2N
  | setColour
  | throwFrame
  | jz
  | getSibling
  | getChild
  | getParent
  | getPropLen
  | inc
  | dec
  | printAddr
  | call1S
  | removeObj
  | printObj
  | ret
  | jump
  | printPaddr
  | load
  | not
  | call1N
  | rtrue
  | rfalse
  | print
  | printRet
  | nop
  | save
  | restore
  | restart
  | retPopped
  | pop
  | catchFrame
  | quit
  | newLine
  | showStatus
  | verify
  | piracy
  | callVS
  | storew
  | storeb
  | putProp
  | sread
  | aread
  | printChar
  | printNum
  | random
  | push
  | pull
  | splitWindow
  | setWindow
  | callVS2
  | eraseWindow
  | eraseLine
  | setCursor
  | getCursor
  | setTextStyle
  | bufferMode
  | outputStream
  | inputStream
  | soundEffect
  | readChar
  | scanTable
  | callVN
  | callVN2
  | tokenise
  | encodeText
  | copyTable
  | printTable
  | checkArgCount
  | saveExt
  | restoreExt
  | logShift
  | artShift
  | setFont
  | drawPicture
  | pictureData
  | erasePicture
  | setMargins
  | saveUndo
  | restoreUndo
  | printUnicode
  | checkUnicode
  | setTrueColour
  | unknown (cls : OpcodeClass) (number : Byte)
deriving DecidableEq, Repr, Inhabited

namespace Opcode

/-- Operations with two operands. -/
def lookupOp2 (version : Nat) : Nat → Option Opcode
  | 1 => some je
  | 2 => some jl
  | 3 => some jg
  | 4 => some decChk
  | 5 => some incChk
  | 6 => some jin
  | 7 => some test
  | 8 => some or
  | 9 => some and
  | 10 => some testAttr
  | 11 => some setAttr
  | 12 => some clearAttr
  | 13 => some store
  | 14 => some insertObj
  | 15 => some loadw
  | 16 => some loadb
  | 17 => some getProp
  | 18 => some getPropAddr
  | 19 => some getNextProp
  | 20 => some add
  | 21 => some sub
  | 22 => some mul
  | 23 => some div
  | 24 => some mod
  | 25 => if 4 ≤ version then some call2S else none
  | 26 => if 5 ≤ version then some call2N else none
  | 27 => if 5 ≤ version then some setColour else none
  | 28 => if 5 ≤ version then some throwFrame else none
  | _ => none

/-- Operations with one operand. -/
def lookupOp1 (version : Nat) : Nat → Option Opcode
  | 0 => some jz
  | 1 => some getSibling
  | 2 => some getChild
  | 3 => some getParent
  | 4 => some getPropLen
  | 5 => some inc
  | 6 => some dec
  | 7 => some printAddr
  | 8 => if 4 ≤ version then some call1S else none
  | 9 => some removeObj
  | 10 => some printObj
  | 11 => some ret
  | 12 => some jump
  | 13 => some printPaddr
  | 14 => some load
  | 15 => some (if version ≤ 4 then not else call1N)
  | _ => none

/-- Operations with no operands. -/
def lookupOp0 (version : Nat) : Nat → Option Opcode
  | 0 => some rtrue
  | 1 => some rfalse
  | 2 => some print
  | 3 => some printRet
  | 4 => some nop
  | 5 => if version ≤ 4 then some save else none
  | 6 => if version ≤ 4 then some restore else none
  | 7 => some restart
  | 8 => some retPopped
  | 9 => some (if version ≤ 4 then pop else catchFrame)
  | 10 => some quit
  | 11 => some newLine
  | 12 => some showStatus
  | 13 => if 3 ≤ version then some verify else none
  | 15 => if 5 ≤ version then some piracy else none
  | _ => none

/-- Operations with a variable number of operands. -/
def lookupVar (version : Nat) : Nat → Option Opcode
  | 0 => some callVS
  | 1 => some storew
  | 2 => some storeb
  | 3 => some putProp
  | 4 => some (if version ≤ 4 then sread else aread)
  | 5 => some printChar
  | 6 => some printNum
  | 7 => some random
  | 8 => some push
  | 9 => some pull
  | 10 => some splitWindow
  | 11 => some setWindow
  | 12 => if 4 ≤ version then some callVS2 else none
  | 13 => some eraseWindow
  | 14 => some eraseLine
  | 15 => some setCursor
  | 16 => some getCursor
  | 17 => some setTextStyle
  | 18 => some bufferMode
  | 19 => some outputStream
  | 20 => some inputStream
  | 21 => some soundEffect
  | 22 => some readChar
  | 23 => some scanTable
  | 24 => if 5 ≤ version then some not else none
  | 25 => if 5 ≤ version then some callVN else none
  | 26 => if 5 ≤ version then some callVN2 else none
  | 27 => if 5 ≤ version then some tokenise else none
  | 28 => if 5 ≤ version then some encodeText else none
  | 29 => if 5 ≤ version then some copyTable else none
  | 30 => if 5 ≤ version then some printTable else none
  | 31 => if 5 ≤ version then some checkArgCount else none
  | _ => none

/-- Operations of the extended form. -/
def lookupExt : Nat → Option Opcode
  | 0 => some saveExt
  | 1 => some restoreExt
  | 2 => some logShift
  | 3 => some artShift
  | 4 => some setFont
  | 5 => some drawPicture
  | 6 => some pictureData
  | 7 => some erasePicture
  | 8 => some setMargins
  | 9 => some saveUndo
  | 10 => some restoreUndo
  | 11 => some printUnicode
  | 12 => some checkUnicode
  | 13 => some setTrueColour
  | _ => none

/-- The operation that a class and a number name in a story version. -/
def lookup (cls : OpcodeClass) (number : Byte) (version : Nat) : Opcode :=
  let found :=
    match cls with
    | .op0 => lookupOp0 version number.toNat
    | .op1 => lookupOp1 version number.toNat
    | .op2 => lookupOp2 version number.toNat
    | .varOps => lookupVar version number.toNat
    | .ext => lookupExt number.toNat
  found.getD (unknown cls number)

/-- Class and number under which an operation is listed, whether or not the version has it. -/
def listed (version : Nat) : Opcode → OpcodeClass × Byte
  | je => (.op2, 1)
  | jl => (.op2, 2)
  | jg => (.op2, 3)
  | decChk => (.op2, 4)
  | incChk => (.op2, 5)
  | jin => (.op2, 6)
  | test => (.op2, 7)
  | or => (.op2, 8)
  | and => (.op2, 9)
  | testAttr => (.op2, 10)
  | setAttr => (.op2, 11)
  | clearAttr => (.op2, 12)
  | store => (.op2, 13)
  | insertObj => (.op2, 14)
  | loadw => (.op2, 15)
  | loadb => (.op2, 16)
  | getProp => (.op2, 17)
  | getPropAddr => (.op2, 18)
  | getNextProp => (.op2, 19)
  | add => (.op2, 20)
  | sub => (.op2, 21)
  | mul => (.op2, 22)
  | div => (.op2, 23)
  | mod => (.op2, 24)
  | call2S => (.op2, 25)
  | call2N => (.op2, 26)
  | setColour => (.op2, 27)
  | throwFrame => (.op2, 28)
  | jz => (.op1, 0)
  | getSibling => (.op1, 1)
  | getChild => (.op1, 2)
  | getParent => (.op1, 3)
  | getPropLen => (.op1, 4)
  | inc => (.op1, 5)
  | dec => (.op1, 6)
  | printAddr => (.op1, 7)
  | call1S => (.op1, 8)
  | removeObj => (.op1, 9)
  | printObj => (.op1, 10)
  | ret => (.op1, 11)
  | jump => (.op1, 12)
  | printPaddr => (.op1, 13)
  | load => (.op1, 14)
  | not => if version ≤ 4 then (.op1, 15) else (.varOps, 24)
  | call1N => (.op1, 15)
  | rtrue => (.op0, 0)
  | rfalse => (.op0, 1)
  | print => (.op0, 2)
  | printRet => (.op0, 3)
  | nop => (.op0, 4)
  | save => (.op0, 5)
  | restore => (.op0, 6)
  | restart => (.op0, 7)
  | retPopped => (.op0, 8)
  | pop => (.op0, 9)
  | catchFrame => (.op0, 9)
  | quit => (.op0, 10)
  | newLine => (.op0, 11)
  | showStatus => (.op0, 12)
  | verify => (.op0, 13)
  | piracy => (.op0, 15)
  | callVS => (.varOps, 0)
  | storew => (.varOps, 1)
  | storeb => (.varOps, 2)
  | putProp => (.varOps, 3)
  | sread => (.varOps, 4)
  | aread => (.varOps, 4)
  | printChar => (.varOps, 5)
  | printNum => (.varOps, 6)
  | random => (.varOps, 7)
  | push => (.varOps, 8)
  | pull => (.varOps, 9)
  | splitWindow => (.varOps, 10)
  | setWindow => (.varOps, 11)
  | callVS2 => (.varOps, 12)
  | eraseWindow => (.varOps, 13)
  | eraseLine => (.varOps, 14)
  | setCursor => (.varOps, 15)
  | getCursor => (.varOps, 16)
  | setTextStyle => (.varOps, 17)
  | bufferMode => (.varOps, 18)
  | outputStream => (.varOps, 19)
  | inputStream => (.varOps, 20)
  | soundEffect => (.varOps, 21)
  | readChar => (.varOps, 22)
  | scanTable => (.varOps, 23)
  | callVN => (.varOps, 25)
  | callVN2 => (.varOps, 26)
  | tokenise => (.varOps, 27)
  | encodeText => (.varOps, 28)
  | copyTable => (.varOps, 29)
  | printTable => (.varOps, 30)
  | checkArgCount => (.varOps, 31)
  | saveExt => (.ext, 0)
  | restoreExt => (.ext, 1)
  | logShift => (.ext, 2)
  | artShift => (.ext, 3)
  | setFont => (.ext, 4)
  | drawPicture => (.ext, 5)
  | pictureData => (.ext, 6)
  | erasePicture => (.ext, 7)
  | setMargins => (.ext, 8)
  | saveUndo => (.ext, 9)
  | restoreUndo => (.ext, 10)
  | printUnicode => (.ext, 11)
  | checkUnicode => (.ext, 12)
  | setTrueColour => (.ext, 13)
  | unknown cls number => (cls, number)

/-- Class and number that encode an operation in a version, if it exists there. -/
def encoding? (op : Opcode) (version : Nat) : Option (OpcodeClass × Byte) :=
  let (cls, number) := op.listed version
  if cls = .ext ∧ version < 5 then none
  else if lookup cls number version = op then some (cls, number) else none

/-- Mnemonic.  The two forms of saving and of restoring share theirs. -/
def name : Opcode → String
  | je => "je"
  | jl => "jl"
  | jg => "jg"
  | decChk => "dec_chk"
  | incChk => "inc_chk"
  | jin => "jin"
  | test => "test"
  | or => "or"
  | and => "and"
  | testAttr => "test_attr"
  | setAttr => "set_attr"
  | clearAttr => "clear_attr"
  | store => "store"
  | insertObj => "insert_obj"
  | loadw => "loadw"
  | loadb => "loadb"
  | getProp => "get_prop"
  | getPropAddr => "get_prop_addr"
  | getNextProp => "get_next_prop"
  | add => "add"
  | sub => "sub"
  | mul => "mul"
  | div => "div"
  | mod => "mod"
  | call2S => "call_2s"
  | call2N => "call_2n"
  | setColour => "set_colour"
  | throwFrame => "throw"
  | jz => "jz"
  | getSibling => "get_sibling"
  | getChild => "get_child"
  | getParent => "get_parent"
  | getPropLen => "get_prop_len"
  | inc => "inc"
  | dec => "dec"
  | printAddr => "print_addr"
  | call1S => "call_1s"
  | removeObj => "remove_obj"
  | printObj => "print_obj"
  | ret => "ret"
  | jump => "jump"
  | printPaddr => "print_paddr"
  | load => "load"
  | not => "not"
  | call1N => "call_1n"
  | rtrue => "rtrue"
  | rfalse => "rfalse"
  | print => "print"
  | printRet => "print_ret"
  | nop => "nop"
  | save => "save"
  | restore => "restore"
  | restart => "restart"
  | retPopped => "ret_popped"
  | pop => "pop"
  | catchFrame => "catch"
  | quit => "quit"
  | newLine => "new_line"
  | showStatus => "show_status"
  | verify => "verify"
  | piracy => "piracy"
  | callVS => "call_vs"
  | storew => "storew"
  | storeb => "storeb"
  | putProp => "put_prop"
  | sread => "sread"
  | aread => "aread"
  | printChar => "print_char"
  | printNum => "print_num"
  | random => "random"
  | push => "push"
  | pull => "pull"
  | splitWindow => "split_window"
  | setWindow => "set_window"
  | callVS2 => "call_vs2"
  | eraseWindow => "erase_window"
  | eraseLine => "erase_line"
  | setCursor => "set_cursor"
  | getCursor => "get_cursor"
  | setTextStyle => "set_text_style"
  | bufferMode => "buffer_mode"
  | outputStream => "output_stream"
  | inputStream => "input_stream"
  | soundEffect => "sound_effect"
  | readChar => "read_char"
  | scanTable => "scan_table"
  | callVN => "call_vn"
  | callVN2 => "call_vn2"
  | tokenise => "tokenise"
  | encodeText => "encode_text"
  | copyTable => "copy_table"
  | printTable => "print_table"
  | checkArgCount => "check_arg_count"
  | saveExt => "save"
  | restoreExt => "restore"
  | logShift => "log_shift"
  | artShift => "art_shift"
  | setFont => "set_font"
  | drawPicture => "draw_picture"
  | pictureData => "picture_data"
  | erasePicture => "erase_picture"
  | setMargins => "set_margins"
  | saveUndo => "save_undo"
  | restoreUndo => "restore_undo"
  | printUnicode => "print_unicode"
  | checkUnicode => "check_unicode"
  | setTrueColour => "set_true_colour"
  | unknown .. => "unknown"

/-- Listing text: the mnemonic, or the class and number of an unknown operation. -/
def text : Opcode → String
  | unknown cls number => "unknown_" ++ cls.text ++ "_" ++ Nat.repr number.toNat
  | op => op.name

end Opcode

end ZMachine

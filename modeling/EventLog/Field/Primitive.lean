set_option autoImplicit false

/-! # Wire integers

The integers of fixed width that a field can hold, under the names that a schema uses for them.
Three names are aliases: they share width and sign with another one but keep their own name in
errors.
-/

namespace EventLog

/-- An integer type of the wire format. -/
inductive Primitive where
  | int16
  | uint16
  | int32
  | uint32
  | int64
  | uint64
  | privilegeEnum
  | privilegeValue
  | privilegeDuration
  deriving DecidableEq, Repr

namespace Primitive

def all : List Primitive :=
  [int16, uint16, int32, uint32, int64, uint64, privilegeEnum, privilegeValue,
    privilegeDuration]

def wireName : Primitive → String
  | int16 => "int16_t"
  | uint16 => "uint16_t"
  | int32 => "int32_t"
  | uint32 => "uint32_t"
  | int64 => "int64_t"
  | uint64 => "uint64_t"
  | privilegeEnum => "PersistentPrivilegeEnumType"
  | privilegeValue => "PersistentPrivilegeValueType"
  | privilegeDuration => "PersistentPrivilegeDurationType"

def ofWireName? (name : String) : Option Primitive := all.find? (·.wireName == name)

def size : Primitive → Nat
  | int16 | uint16 | privilegeEnum | privilegeValue => 2
  | int32 | uint32 => 4
  | int64 | uint64 | privilegeDuration => 8

end Primitive

end EventLog

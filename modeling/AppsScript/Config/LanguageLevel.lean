import AppsScript.Text.Basic

/-!
# Language levels

The versions of the scripting language that code can be compiled to, and their names.
-/

namespace AppsScript

/-- A version of the language, the oldest first. -/
inductive LanguageLevel
  | es5
  | es2015
  | es2016
  | es2017
  | es2018
  | es2019
  | es2020
  | es2021
  | es2022
  | es2023
  | es2024
  /-- Whatever the language has to offer. -/
  | newest
deriving DecidableEq, Repr

namespace LanguageLevel

def all : List LanguageLevel :=
  [es5, es2015, es2016, es2017, es2018, es2019, es2020, es2021, es2022, es2023, es2024, newest]

def name : LanguageLevel → Text
  | es5 => "es5"
  | es2015 => "es2015"
  | es2016 => "es2016"
  | es2017 => "es2017"
  | es2018 => "es2018"
  | es2019 => "es2019"
  | es2020 => "es2020"
  | es2021 => "es2021"
  | es2022 => "es2022"
  | es2023 => "es2023"
  | es2024 => "es2024"
  | newest => "esnext"

/-- The level of a name in letters of either case; `es6` is another name of `es2015`. -/
def ofName? (text : Text) : Option LanguageLevel :=
  let lower := Text.lowerAscii text
  if lower = "es6" then some es2015 else all.find? fun level => level.name == lower

/-- The message for a text that names no level. -/
def invalidMessage (text : Text) : Text := Text.concat ["Invalid target \"", text, "\"."]

theorem ofName?_name (level : LanguageLevel) : ofName? level.name = some level := by
  cases level <;> decide +kernel

end LanguageLevel

end AppsScript

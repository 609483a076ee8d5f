import Mathlib.Tactic

namespace Jellybean.Model

/-- A `std::string` as its characters. -/
abbrev Text := List Char

/-- What the conversions of `<string>` throw. -/
inductive ConversionError where
  | invalidArgument
  | outOfRange
  deriving DecidableEq

/-- `std::isspace`. -/
def isSpace (c : Char) : Bool := c ∈ [' ', '\t', '\n', '\x0b', '\x0c', '\r']

def isDigit (c : Char) : Bool := '0' ≤ c && c ≤ '9'

def decimal (digits : Text) : Nat := digits.foldl (fun acc c => 10 * acc + (c.toNat - 48)) 0

/-- The sign and the magnitude that `strtol` and its relatives read from the start of a text:
white space, a sign and as many digits as there are. Without digits nothing is converted. -/
def readNumber (s : Text) : Except ConversionError (Bool × Nat) :=
  let s := s.dropWhile isSpace
  let negative := s.head? = some '-'
  let s := if s.head? = some '-' ∨ s.head? = some '+' then s.tail else s
  let digits := s.takeWhile isDigit
  if digits = [] then .error .invalidArgument else .ok (negative, decimal digits)

def signed (negative : Bool) (magnitude : Nat) : Int :=
  if negative then -(magnitude : Int) else magnitude

/-- A signed conversion to `bits` bits. -/
def stoSigned (bits : Nat) (s : Text) : Except ConversionError Int := do
  let (negative, magnitude) ← readNumber s
  let v := signed negative magnitude
  if v < -2^(bits - 1) ∨ 2^(bits - 1) ≤ v then .error .outOfRange else .ok v

def stoi : Text → Except ConversionError Int := stoSigned 32

def stoll : Text → Except ConversionError Int := stoSigned 64

/-- A minus sign is accepted, and the value is then negated modulo `2^64`. -/
def stoul (s : Text) : Except ConversionError Nat := do
  let (negative, magnitude) ← readNumber s
  if 2^64 ≤ magnitude then .error .outOfRange
  else .ok (if negative then (2^64 - magnitude) % 2^64 else magnitude)

/-- The characters of `" \t\r\n"`. -/
def isBlank (c : Char) : Bool := c ∈ [' ', '\t', '\r', '\n']

def trim (s : Text) : Text := ((s.dropWhile isBlank).reverse.dropWhile isBlank).reverse

/-- The items that `std::getline` with this delimiter reads one after another: the delimiter ends
an item, and after the last one nothing is left to read. -/
def getlines (delimiter : Char) (s : Text) : List Text :=
  let items := s.splitOn delimiter
  if items.getLast? = some [] then items.dropLast else items

inductive BackendKind where
  | torchScript
  | onnx
  deriving DecidableEq

inductive DeviceKind where
  | cpu
  | cuda
  deriving DecidableEq

structure ModelConfig where
  name : Text := []
  backend : BackendKind := .torchScript
  version : Int := 1
  device : DeviceKind := .cpu
  maxBatchSize : Nat := 4
  maxBatchDelayUs : Int := 1000
  inputShape : List Int := []
  modelFilePath : Text := []
  deriving DecidableEq

def parseShape (val : Text) : Except ConversionError (List Int) :=
  ((getlines ',' val).map trim |>.filter (· ≠ [])).mapM stoll

def parseBackend (val : Text) : BackendKind :=
  if val = "torchscript".toList ∨ val = "torch".toList then .torchScript
  else if val = "onnx".toList then .onnx
  else .torchScript

/-- One `key=value` of the file. -/
def setKey (cfg : ModelConfig) (key val : Text) : Except ConversionError ModelConfig :=
  if key = "name".toList then .ok { cfg with name := val }
  else if key = "backend".toList then .ok { cfg with backend := parseBackend val }
  else if key = "version".toList then do return { cfg with version := ← stoi val }
  else if key = "device".toList then
    .ok { cfg with device := if val = "cuda".toList then .cuda else .cpu }
  else if key = "max_batch_size".toList then do return { cfg with maxBatchSize := ← stoul val }
  else if key = "max_batch_delay_us".toList then do return { cfg with maxBatchDelayUs := ← stoll val }
  else if key = "input_shape".toList then do return { cfg with inputShape := ← parseShape val }
  else .ok cfg

/-- One line of `config.ini`. -/
def parseLine (cfg : ModelConfig) (line : Text) : Except ConversionError ModelConfig :=
  let line := trim line
  if line = [] ∨ line.head? = some '#' then .ok cfg
  else if '=' ∈ line then
    setKey cfg (trim (line.takeWhile (· ≠ '='))) (trim (line.dropWhile (· ≠ '=')).tail)
  else .ok cfg

/-- An entry of a model directory, with the names of what it holds. -/
structure SubEntry where
  name : Text
  isDirectory : Bool
  files : List Text
  deriving DecidableEq

/-- An entry of the repository: `configIni` is the text of `config.ini` where there is one, and
`entries` the rest, in the order in which the directory is iterated. -/
structure DirEntry where
  name : Text
  isDirectory : Bool
  configIni : Option Text
  entries : List SubEntry
  deriving DecidableEq

def candidates : List Text :=
  ["model.pt", "model.pth", "model.onnx", "model.engine", "model.bin"].map String.toList

def findModelFile (versionDir : Text) (sub : SubEntry) : Text :=
  match candidates.find? (· ∈ sub.files) with
  | some name => versionDir ++ '/' :: name
  | none => []

/-- The path of the file and its version, from `<model_dir>/<version>`. -/
def versionedFile (modelDir : Text) (dir : DirEntry) (version : Int) : Text :=
  match dir.entries.find? fun sub => sub.isDirectory && sub.name == (toString version).toList with
  | some sub => findModelFile (modelDir ++ '/' :: sub.name) sub
  | none => []

/-- One entry in the search for the highest version; the names that are no numbers are passed
over. -/
def bestVersion (modelDir : Text) (best : Int × ModelConfig) (sub : SubEntry) : Int × ModelConfig :=
  if sub.isDirectory then
    match stoi sub.name with
    | .error _ => best
    | .ok v =>
      if v > best.1 then
        let candidate := findModelFile (modelDir ++ '/' :: sub.name) sub
        if candidate ≠ [] then (v, { best.2 with version := v, modelFilePath := candidate })
        else best
      else best
  else best

/-- `ModelConfig::from_dir`, with the path of the directory. -/
def fromDir (modelDir : Text) (dir : DirEntry) : Except ConversionError ModelConfig := do
  let cfg ← (getlines '\n' (dir.configIni.getD [])).foldlM parseLine { name := dir.name }
  let cfg := { cfg with modelFilePath := versionedFile modelDir dir cfg.version }
  if cfg.modelFilePath = [] then
    return (dir.entries.foldl (bestVersion modelDir) (-1, cfg)).2
  else return cfg

end Jellybean.Model

/-!
# Plain text

What comes from a target may hold characters that steer a terminal: control
characters, and escape sequences, which the escape character opens. Plain text
is what is left without them; the blanks among the control characters stay.

A reader walks through the text and keeps in mind in which part of a sequence it
stands. A blank within a sequence is shown and interrupts it: what follows is
shown too, up to the next control character, behind which the sequence goes on.
-/

namespace AvrConformance.Text.Plain

/-! ## Characters -/

/-- The character that opens an escape sequence. -/
def escape : Char := '\x1b'

/-- The character that ends a command to the terminal's host. -/
def bell : Char := '\x07'

/-- Is this one of the two characters, cancel and substitute, that break off
whatever sequence they meet? -/
def isCancel (c : Char) : Bool := c = '\x18' || c = '\x1a'

/-- Is this one of the control characters that only move on: tab, line feed,
form feed and carriage return? -/
def isBlank (c : Char) : Bool := c = '\t' || c = '\n' || c = '\x0c' || c = '\r'

def isControl (c : Char) : Bool := c.toNat < 0x20 || c.toNat = 0x7F

/-- May this character stand in plain text? -/
def isPlain (c : Char) : Bool := !isControl c || isBlank c

def isAscii (c : Char) : Bool := c.toNat < 0x80

/-- Is the byte `9C`, which terminates a string, among the bytes of this
character? -/
def holdsTerminator (c : Char) : Bool := (String.utf8EncodeChar c).contains 0x9C

/-! ## Escape sequences -/

/-- Where one stands in an escape sequence. -/
inductive Part where
  /-- Right behind the escape character. -/
  | opened
  /-- Behind the punctuation of a short sequence, whose last character is due. -/
  | punctuated
  /-- In a control sequence, which a letter or the like ends. -/
  | control
  /-- In a command to the terminal's host, which the bell ends. -/
  | command
  /-- At the head of a string for a device. -/
  | head
  /-- Among the parameters at the head of a string for a device. -/
  | parameters
  /-- Behind the punctuation at the head of a string for a device. -/
  | qualified
  /-- In a string, which its terminator ends. -/
  | string
  deriving DecidableEq

namespace Part

/-- Does a blank in this part of a sequence interrupt it? Commands and strings
swallow their blanks. -/
def yields : Part → Bool
  | opened | punctuated | control => true
  | command | head | parameters | qualified | string => false

/-- Is this one of the marks that may qualify a sequence? -/
def isPunctuation (c : Char) : Bool := ' ' ≤ c && c ≤ '/'

/-- Is this one of the characters that number the parameters of a sequence? -/
def isParameter (c : Char) : Bool := '0' ≤ c && c ≤ ';'

/-- The part behind a character that is not shown, if the sequence goes on. A
character that has no meaning in a part leaves it. -/
def next? : Part → Char → Option Part
  | opened, c =>
    if c = '[' then some control
    else if c = ']' then some command
    else if c = 'P' then some head
    else if c = 'X' || c = '^' || c = '_' then some string
    else if isPunctuation c then some punctuated
    else if '0' ≤ c && c ≤ '~' then none
    else some opened
  | punctuated, c => if '0' ≤ c && c ≤ '~' then none else some punctuated
  | control, c => if '@' ≤ c && c ≤ '~' then none else some control
  | command, c => if c = bell then none else some command
  | head, c =>
    if isPunctuation c then some qualified
    else if '0' ≤ c && c ≤ '?' then some parameters
    else if '@' ≤ c && c ≤ '~' then some string
    else some head
  | parameters, c =>
    if isPunctuation c then some qualified
    else if isParameter c then some parameters
    else if '<' ≤ c && c ≤ '~' then some string
    else some parameters
  | qualified, c => if '0' ≤ c && c ≤ '~' then some string else some qualified
  | string, c => if holdsTerminator c then none else some string

end Part

/-! ## The reader -/

/-- Where a reader of a terminal's input stands. -/
inductive Place where
  /-- Outside every escape sequence. -/
  | outside
  /-- In a part of a sequence. -/
  | inside (part : Part)
  /-- In a part of a sequence that a blank has interrupted. -/
  | interrupted (part : Part)
  deriving DecidableEq

namespace Place

/-- Does the reader show a character here? -/
def shows : Place → Char → Bool
  | outside, c => isPlain c
  | inside part, c => part.yields && isBlank c
  | interrupted _, c => isPlain c

/-- Where the reader stands behind a character. Escape opens a sequence from
everywhere. An interrupted sequence goes on behind a control character, and a
character beyond ASCII ends it. -/
def step (p : Place) (c : Char) : Place :=
  if c = escape then inside .opened
  else if isCancel c then outside
  else
    match p with
    | outside => outside
    | inside part =>
      if p.shows c then interrupted part
      else
        match part.next? c with
        | some part => inside part
        | none => outside
    | interrupted part =>
      if !p.shows c then inside part
      else if isAscii c then interrupted part
      else outside

end Place

/-- What a reader who stands somewhere shows of the characters that follow. -/
def shown : Place → List Char → List Char
  | _, [] => []
  | p, c :: rest => if p.shows c then c :: shown (p.step c) rest else shown (p.step c) rest

/-- The plain text within a text. -/
def ofText (s : List Char) : List Char := shown .outside s

end AvrConformance.Text.Plain

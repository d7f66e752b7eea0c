/-!
# The marks of markup

The texts that open and close the constructs of markup. They are lists of characters, which is what
readers compare with.
-/
namespace EmailMarkup.Template

def endTagOpen : List Char := ['<', '/']

def commentOpen : List Char := ['<', '!', '-', '-']

def commentClose : List Char := ['-', '-', '>']

def cdataOpen : List Char := ['<', '!', '[', 'C', 'D', 'A', 'T', 'A', '[']

def cdataClose : List Char := [']', ']', '>']

def instructionOpen : List Char := ['<', '?']

def instructionClose : List Char := ['?', '>']

def declarationOpen : List Char := ['<', '!']

def doctypeOpen : List Char := ['<', '!', 'D', 'O', 'C', 'T', 'Y', 'P', 'E']

/-- Closes a tag or a declaration. -/
def tagClose : List Char := ['>']

end EmailMarkup.Template

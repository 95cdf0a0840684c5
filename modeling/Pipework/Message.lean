/-! The closed set of reasons for refusing a definition. Codes and wording are what users and tools
match on. -/

namespace Pipework

namespace Message

inductive Kind where
  | lexical
  | grammar
  deriving DecidableEq, Repr

/-- A piece of wording: fixed text, or the insert with the given number. -/
inductive Part where
  | text (s : String)
  | insert (index : Nat)
  deriving DecidableEq, Repr

instance : Coe String Part := ⟨.text⟩

instance (n : Nat) : OfNat Part n := ⟨.insert n⟩

abbrev Template := List Part

/-- A missing insert is left empty. -/
def Template.fill (inserts : List String) : Template → String
  | [] => ""
  | .text s :: rest => s ++ Template.fill inserts rest
  | .insert n :: rest => inserts[n]?.getD "" ++ Template.fill inserts rest

/-- The wording with its inserts shown by number, in braces. -/
def Template.source : Template → String
  | [] => ""
  | .text s :: rest => s ++ Template.source rest
  | .insert n :: rest => "\x7b" ++ toString n ++ "\x7d" ++ Template.source rest

end Message

inductive Message where
  | unexpectedDataAfterStreamdef
  | noWhitespaceBeforeArgName
  | noWhitespaceBeforeArgEquals
  | noWhitespaceBeforeArgValue
  | moreInput
  | expectedArgumentValue
  | nonTerminatingDoubleQuotedString
  | nonTerminatingQuotedString
  | missingCharacter
  | notExpectedToken
  | outOfData
  | unexpectedEscapeChar
  | unexpectedData
  | expectedAppname
  | expectedWhitespaceAfterAppBeforeArgument
  | expectedChannelPrefixQueueTopic
  | expectedChannelPrefixQueueTopicTap
  | illegalStreamName
  | illegalTaskName
  | tapNeedsThreeComponents
  | notAllowedToTapThat
  | onlyATapOnAStreamCanBeIndexed
  | channelIndexingNotAllowed
  | noWhitespaceInChannelDefinition
  | expectedDestinationPrefix
  | destinationsUnsupportedHere
  | noWhitespaceInDestinationDefinition
  | noWhitespaceBetweenLabelNameAndColon
  | duplicateLabel
  | noWhitespaceInDottedName
  | expectedWhitespaceAfterLabelColon
  | expectedStreamNameAfterLabelColon
  | taskDoubleAndRequired
  | taskDoubleOrRequired
  | taskMissingTransitionArrow
  | taskUnquotedTransitionCheckMustBeNumber
  | taskNoLabelsOnParens
  | noDoubleLabels
  | taskArrowShouldBePrecededByCode
  | taskValidationSecondarySequencesMustBeNamed
  | taskValidationDuplicateLabel
  | taskValidationTransitionTargetLabelUndefined
  | taskValidationLabelClashesWithTaskappName
  | taskUnexpectedData
  | taskMoreInput
  | taskValidationAppNameClashesWithLabel
  | taskArgumentsNotAllowedUnlessInAppMode
  | taskValidationAppNameAlreadyInUse
  | taskValidationSplitWithOneFlow
  | dontMixPipeAndDoublepipe
  | dontUseDoublepipeWithChannels
  | unexpectedDataInDestinationName
  | taskUnterminatedSplit
  | taskNestingTooDeep
  deriving DecidableEq, Repr

namespace Message

def all : List Message := [
  .unexpectedDataAfterStreamdef, .noWhitespaceBeforeArgName, .noWhitespaceBeforeArgEquals,
  .noWhitespaceBeforeArgValue, .moreInput, .expectedArgumentValue,
  .nonTerminatingDoubleQuotedString, .nonTerminatingQuotedString, .missingCharacter,
  .notExpectedToken, .outOfData, .unexpectedEscapeChar, .unexpectedData, .expectedAppname,
  .expectedWhitespaceAfterAppBeforeArgument, .expectedChannelPrefixQueueTopic,
  .expectedChannelPrefixQueueTopicTap, .illegalStreamName, .illegalTaskName,
  .tapNeedsThreeComponents, .notAllowedToTapThat, .onlyATapOnAStreamCanBeIndexed,
  .channelIndexingNotAllowed, .noWhitespaceInChannelDefinition, .expectedDestinationPrefix,
  .destinationsUnsupportedHere, .noWhitespaceInDestinationDefinition,
  .noWhitespaceBetweenLabelNameAndColon, .duplicateLabel, .noWhitespaceInDottedName,
  .expectedWhitespaceAfterLabelColon, .expectedStreamNameAfterLabelColon, .taskDoubleAndRequired,
  .taskDoubleOrRequired, .taskMissingTransitionArrow, .taskUnquotedTransitionCheckMustBeNumber,
  .taskNoLabelsOnParens, .noDoubleLabels, .taskArrowShouldBePrecededByCode,
  .taskValidationSecondarySequencesMustBeNamed, .taskValidationDuplicateLabel,
  .taskValidationTransitionTargetLabelUndefined, .taskValidationLabelClashesWithTaskappName,
  .taskUnexpectedData, .taskMoreInput, .taskValidationAppNameClashesWithLabel,
  .taskArgumentsNotAllowedUnlessInAppMode, .taskValidationAppNameAlreadyInUse,
  .taskValidationSplitWithOneFlow, .dontMixPipeAndDoublepipe, .dontUseDoublepipeWithChannels,
  .unexpectedDataInDestinationName, .taskUnterminatedSplit, .taskNestingTooDeep]

theorem mem_all (m : Message) : m ∈ all := by cases m <;> decide

def name : Message → String
  | .unexpectedDataAfterStreamdef => "UNEXPECTED_DATA_AFTER_STREAMDEF"
  | .noWhitespaceBeforeArgName => "NO_WHITESPACE_BEFORE_ARG_NAME"
  | .noWhitespaceBeforeArgEquals => "NO_WHITESPACE_BEFORE_ARG_EQUALS"
  | .noWhitespaceBeforeArgValue => "NO_WHITESPACE_BEFORE_ARG_VALUE"
  | .moreInput => "MORE_INPUT"
  | .expectedArgumentValue => "EXPECTED_ARGUMENT_VALUE"
  | .nonTerminatingDoubleQuotedString => "NON_TERMINATING_DOUBLE_QUOTED_STRING"
  | .nonTerminatingQuotedString => "NON_TERMINATING_QUOTED_STRING"
  | .missingCharacter => "MISSING_CHARACTER"
  | .notExpectedToken => "NOT_EXPECTED_TOKEN"
  | .outOfData => "OOD"
  | .unexpectedEscapeChar => "UNEXPECTED_ESCAPE_CHAR"
  | .unexpectedData => "UNEXPECTED_DATA"
  | .expectedAppname => "EXPECTED_APPNAME"
  | .expectedWhitespaceAfterAppBeforeArgument => "EXPECTED_WHITESPACE_AFTER_APP_BEFORE_ARGUMENT"
  | .expectedChannelPrefixQueueTopic => "EXPECTED_CHANNEL_PREFIX_QUEUE_TOPIC"
  | .expectedChannelPrefixQueueTopicTap => "EXPECTED_CHANNEL_PREFIX_QUEUE_TOPIC_TAP"
  | .illegalStreamName => "ILLEGAL_STREAM_NAME"
  | .illegalTaskName => "ILLEGAL_TASK_NAME"
  | .tapNeedsThreeComponents => "TAP_NEEDS_THREE_COMPONENTS"
  | .notAllowedToTapThat => "NOT_ALLOWED_TO_TAP_THAT"
  | .onlyATapOnAStreamCanBeIndexed => "ONLY_A_TAP_ON_A_STREAM_CAN_BE_INDEXED"
  | .channelIndexingNotAllowed => "CHANNEL_INDEXING_NOT_ALLOWED"
  | .noWhitespaceInChannelDefinition => "NO_WHITESPACE_IN_CHANNEL_DEFINITION"
  | .expectedDestinationPrefix => "EXPECTED_DESTINATION_PREFIX"
  | .destinationsUnsupportedHere => "DESTINATIONS_UNSUPPORTED_HERE"
  | .noWhitespaceInDestinationDefinition => "NO_WHITESPACE_IN_DESTINATION_DEFINITION"
  | .noWhitespaceBetweenLabelNameAndColon => "NO_WHITESPACE_BETWEEN_LABEL_NAME_AND_COLON"
  | .duplicateLabel => "DUPLICATE_LABEL"
  | .noWhitespaceInDottedName => "NO_WHITESPACE_IN_DOTTED_NAME"
  | .expectedWhitespaceAfterLabelColon => "EXPECTED_WHITESPACE_AFTER_LABEL_COLON"
  | .expectedStreamNameAfterLabelColon => "EXPECTED_STREAM_NAME_AFTER_LABEL_COLON"
  | .taskDoubleAndRequired => "TASK_DOUBLE_AND_REQUIRED"
  | .taskDoubleOrRequired => "TASK_DOUBLE_OR_REQUIRED"
  | .taskMissingTransitionArrow => "TASK_MISSING_TRANSITION_ARROW"
  | .taskUnquotedTransitionCheckMustBeNumber => "TASK_UNQUOTED_TRANSITION_CHECK_MUST_BE_NUMBER"
  | .taskNoLabelsOnParens => "TASK_NO_LABELS_ON_PARENS"
  | .noDoubleLabels => "NO_DOUBLE_LABELS"
  | .taskArrowShouldBePrecededByCode => "TASK_ARROW_SHOULD_BE_PRECEDED_BY_CODE"
  | .taskValidationSecondarySequencesMustBeNamed =>
    "TASK_VALIDATION_SECONDARY_SEQUENCES_MUST_BE_NAMED"
  | .taskValidationDuplicateLabel => "TASK_VALIDATION_DUPLICATE_LABEL"
  | .taskValidationTransitionTargetLabelUndefined =>
    "TASK_VALIDATION_TRANSITION_TARGET_LABEL_UNDEFINED"
  | .taskValidationLabelClashesWithTaskappName => "TASK_VALIDATION_LABEL_CLASHES_WITH_TASKAPP_NAME"
  | .taskUnexpectedData => "TASK_UNEXPECTED_DATA"
  | .taskMoreInput => "TASK_MORE_INPUT"
  | .taskValidationAppNameClashesWithLabel => "TASK_VALIDATION_APP_NAME_CLASHES_WITH_LABEL"
  | .taskArgumentsNotAllowedUnlessInAppMode => "TASK_ARGUMENTS_NOT_ALLOWED_UNLESS_IN_APP_MODE"
  | .taskValidationAppNameAlreadyInUse => "TASK_VALIDATION_APP_NAME_ALREADY_IN_USE"
  | .taskValidationSplitWithOneFlow => "TASK_VALIDATION_SPLIT_WITH_ONE_FLOW"
  | .dontMixPipeAndDoublepipe => "DONT_MIX_PIPE_AND_DOUBLEPIPE"
  | .dontUseDoublepipeWithChannels => "DONT_USE_DOUBLEPIPE_WITH_CHANNELS"
  | .unexpectedDataInDestinationName => "UNEXPECTED_DATA_IN_DESTINATION_NAME"
  | .taskUnterminatedSplit => "TASK_UNTERMINATED_SPLIT"
  | .taskNestingTooDeep => "TASK_NESTING_TOO_DEEP"

def ofName? (text : String) : Option Message := all.find? fun m => m.name == text

def code : Message → Nat
  | .unexpectedDataAfterStreamdef => 100
  | .noWhitespaceBeforeArgName => 101
  | .noWhitespaceBeforeArgEquals => 102
  | .noWhitespaceBeforeArgValue => 103
  | .moreInput => 104
  | .expectedArgumentValue => 105
  | .nonTerminatingDoubleQuotedString => 106
  | .nonTerminatingQuotedString => 107
  | .missingCharacter => 108
  | .notExpectedToken => 111
  | .outOfData => 112
  | .unexpectedEscapeChar => 114
  | .unexpectedData => 115
  | .expectedAppname => 118
  | .expectedWhitespaceAfterAppBeforeArgument => 119
  | .expectedChannelPrefixQueueTopic => 120
  | .expectedChannelPrefixQueueTopicTap => 121
  | .illegalStreamName => 122
  | .illegalTaskName => 123
  | .tapNeedsThreeComponents => 124
  | .notAllowedToTapThat => 125
  | .onlyATapOnAStreamCanBeIndexed => 126
  | .channelIndexingNotAllowed => 127
  | .noWhitespaceInChannelDefinition => 128
  | .expectedDestinationPrefix => 133
  | .destinationsUnsupportedHere => 134
  | .noWhitespaceInDestinationDefinition => 139
  | .noWhitespaceBetweenLabelNameAndColon => 140
  | .duplicateLabel => 143
  | .noWhitespaceInDottedName => 145
  | .expectedWhitespaceAfterLabelColon => 147
  | .expectedStreamNameAfterLabelColon => 148
  | .taskDoubleAndRequired => 150
  | .taskDoubleOrRequired => 151
  | .taskMissingTransitionArrow => 153
  | .taskUnquotedTransitionCheckMustBeNumber => 154
  | .taskNoLabelsOnParens => 155
  | .noDoubleLabels => 156
  | .taskArrowShouldBePrecededByCode => 157
  | .taskValidationSecondarySequencesMustBeNamed => 158
  | .taskValidationDuplicateLabel => 159
  | .taskValidationTransitionTargetLabelUndefined => 160
  | .taskValidationLabelClashesWithTaskappName => 161
  | .taskUnexpectedData => 162
  | .taskMoreInput => 163
  | .taskValidationAppNameClashesWithLabel => 164
  | .taskArgumentsNotAllowedUnlessInAppMode => 165
  | .taskValidationAppNameAlreadyInUse => 166
  | .taskValidationSplitWithOneFlow => 167
  | .dontMixPipeAndDoublepipe => 169
  | .dontUseDoublepipeWithChannels => 170
  | .unexpectedDataInDestinationName => 171
  | .taskUnterminatedSplit => 172
  | .taskNestingTooDeep => 173

/-- Lexical reasons arise while a text is cut into tokens, all others while tokens are read. -/
def kind : Message → Kind
  | .nonTerminatingDoubleQuotedString | .nonTerminatingQuotedString | .missingCharacter
  | .unexpectedEscapeChar | .unexpectedData | .taskDoubleAndRequired => .lexical
  | _ => .grammar

/-- Reasons that only a whole task can give. -/
def concernsWholeTask : Message → Bool
  | .taskValidationSecondarySequencesMustBeNamed
  | .taskValidationDuplicateLabel
  | .taskValidationTransitionTargetLabelUndefined
  | .taskValidationLabelClashesWithTaskappName
  | .taskValidationAppNameClashesWithLabel
  | .taskValidationAppNameAlreadyInUse
  | .taskValidationSplitWithOneFlow => true
  | _ => false

def template : Message → Template
  | .unexpectedDataAfterStreamdef => ["Found unexpected data after stream definition: '", 0, "'"]
  | .noWhitespaceBeforeArgName => ["No whitespace allowed between '--' and option name"]
  | .noWhitespaceBeforeArgEquals => ["No whitespace allowed after argument name and before '='"]
  | .noWhitespaceBeforeArgValue => ["No whitespace allowed after '=' and before option value"]
  | .moreInput => ["After parsing a valid stream, there is still more data: '", 0, "'"]
  | .expectedArgumentValue => ["Expected an argument value but was '", 0, "'"]
  | .nonTerminatingDoubleQuotedString => ["Cannot find terminating \" for string"]
  | .nonTerminatingQuotedString => ["Cannot find terminating ' for string"]
  | .missingCharacter => ["Missing a character '", 0, "'"]
  | .notExpectedToken => ["Expected '", 0, "' but was '", 1, "'"]
  | .outOfData => ["Unexpectedly ran out of input"]
  | .unexpectedEscapeChar => ["Unexpected escape char"]
  | .unexpectedData => ["Unexpected data in definition '", 0, "'"]
  | .expectedAppname => ["Expected app name but found '", 0, "'"]
  | .expectedWhitespaceAfterAppBeforeArgument =>
    ["Expected whitespace after app name and before argument"]
  | .expectedChannelPrefixQueueTopic =>
    ["Expected channel prefix of 'queue' or 'topic' but found '", 0, "'"]
  | .expectedChannelPrefixQueueTopicTap =>
    ["Expected channel prefix of 'queue', 'topic' or 'tap' but found '", 0, "'"]
  | .illegalStreamName => ["Illegal name for a stream '", 0, "'"]
  | .illegalTaskName => ["Illegal name for a task '", 0, "'"]
  | .tapNeedsThreeComponents => ["A tap needs at least three components, e.g. 'tap:stream:name'"]
  | .notAllowedToTapThat => ["Only a stream can be tapped, not '", 0, "'"]
  | .onlyATapOnAStreamCanBeIndexed => ["Only a tap on a stream can be indexed with a label"]
  | .channelIndexingNotAllowed => ["Named channels cannot be indexed with '.'"]
  | .noWhitespaceInChannelDefinition =>
    ["No whitespace allowed between components in a channel name"]
  | .expectedDestinationPrefix => ["Expected ':' destination prefix but found '", 0, "'"]
  | .destinationsUnsupportedHere => ["A destination reference is not supported in this position"]
  | .noWhitespaceInDestinationDefinition =>
    ["No whitespace allowed between components in a destination name"]
  | .noWhitespaceBetweenLabelNameAndColon => ["No whitespace allowed between label name and colon"]
  | .duplicateLabel =>
    ["Label '", 0, "' should be unique but app '", 1, "' (at position ", 2, ") and app '", 3,
      "' (at position ", 4, ") both use it"]
  | .noWhitespaceInDottedName => ["No whitespace is allowed between dot and components of a name"]
  | .expectedWhitespaceAfterLabelColon => ["Expected whitespace after label colon"]
  | .expectedStreamNameAfterLabelColon => ["Expected a stream or destination name after the colon"]
  | .taskDoubleAndRequired => ["Use '&&' to join tasks in a sequence"]
  | .taskDoubleOrRequired => ["Use '||' to separate the flows of a split"]
  | .taskMissingTransitionArrow => ["Expected '->' after transition condition"]
  | .taskUnquotedTransitionCheckMustBeNumber =>
    ["Unquoted transition condition must be a number or '*' but was '", 0, "'"]
  | .taskNoLabelsOnParens => ["Labels are not supported on parenthesized groups"]
  | .noDoubleLabels => ["An app can only have one label"]
  | .taskArrowShouldBePrecededByCode =>
    ["A transition arrow must be preceded by an exit code or status"]
  | .taskValidationSecondarySequencesMustBeNamed =>
    ["Secondary sequences must have labels or are unreachable"]
  | .taskValidationDuplicateLabel => ["This label has already been defined: '", 0, "'"]
  | .taskValidationTransitionTargetLabelUndefined =>
    ["Transition target label is not defined: '", 0, "'"]
  | .taskValidationLabelClashesWithTaskappName =>
    ["Label '", 0, "' clashes with the name of an unlabelled task app"]
  | .taskUnexpectedData => ["Unexpected data in task definition '", 0, "'"]
  | .taskMoreInput => ["After parsing a valid task, there is still more data: '", 0, "'"]
  | .taskValidationAppNameClashesWithLabel =>
    ["Task app name '", 0, "' clashes with a label of the same name"]
  | .taskArgumentsNotAllowedUnlessInAppMode =>
    ["Arguments are not allowed in a composed task definition"]
  | .taskValidationAppNameAlreadyInUse =>
    ["App '", 0, "' is used more than once; use a label to make it unique"]
  | .taskValidationSplitWithOneFlow => ["A split must have more than one flow"]
  | .dontMixPipeAndDoublepipe => ["Do not mix '|' and '||' in the same stream definition"]
  | .dontUseDoublepipeWithChannels =>
    ["Do not use '||' between source/processor/sink apps in a stream"]
  | .unexpectedDataInDestinationName => ["Unexpected data in destination name '", 0, "'"]
  | .taskUnterminatedSplit => ["Split is not terminated, expected '>' but found '", 0, "'"]
  | .taskNestingTooDeep => ["Splits and parentheses may nest at most ", 0, " levels deep"]

/-- The message as shown: code, byte position and wording. -/
def format (m : Message) (offset : Nat) (inserts : List String) : String :=
  toString m.code ++ "E:(pos " ++ toString offset ++ "): " ++ m.template.fill inserts

end Message

end Pipework

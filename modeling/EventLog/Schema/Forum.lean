import EventLog.Schema.Table

set_option autoImplicit false

/-! # The forum's events

The schema table of the events that a discussion forum persists: users, threads, messages, tags
and categories. Event type 0 marks the end of a batch and has no fields.
-/

namespace EventLog.Schema.Forum

def typeNames : List String :=
  ["UNKNOWN",
    "ADD_NEW_USER",
    "CHANGE_USER_NAME",
    "CHANGE_USER_INFO",
    "CHANGE_USER_TITLE",
    "CHANGE_USER_SIGNATURE",
    "CHANGE_USER_LOGO",
    "DELETE_USER",
    "ADD_NEW_DISCUSSION_THREAD",
    "CHANGE_DISCUSSION_THREAD_NAME",
    "CHANGE_DISCUSSION_THREAD_PIN_DISPLAY_ORDER",
    "DELETE_DISCUSSION_THREAD",
    "MERGE_DISCUSSION_THREADS",
    "SUBSCRIBE_TO_DISCUSSION_THREAD",
    "UNSUBSCRIBE_FROM_DISCUSSION_THREAD",
    "ADD_NEW_DISCUSSION_THREAD_MESSAGE",
    "CHANGE_DISCUSSION_THREAD_MESSAGE_CONTENT",
    "INCREMENT_DISCUSSION_THREAD_NUMBER_OF_VISITS",
    "MOVE_DISCUSSION_THREAD_MESSAGE",
    "DELETE_DISCUSSION_THREAD_MESSAGE",
    "DISCUSSION_THREAD_MESSAGE_UP_VOTE",
    "DISCUSSION_THREAD_MESSAGE_DOWN_VOTE",
    "DISCUSSION_THREAD_MESSAGE_RESET_VOTE",
    "ADD_COMMENT_TO_DISCUSSION_THREAD_MESSAGE",
    "SOLVE_DISCUSSION_THREAD_MESSAGE_COMMENT",
    "ADD_NEW_DISCUSSION_TAG",
    "CHANGE_DISCUSSION_TAG_NAME",
    "CHANGE_DISCUSSION_TAG_UI_BLOB",
    "DELETE_DISCUSSION_TAG",
    "ADD_DISCUSSION_TAG_TO_THREAD",
    "REMOVE_DISCUSSION_TAG_FROM_THREAD",
    "MERGE_DISCUSSION_TAGS",
    "ADD_NEW_DISCUSSION_CATEGORY",
    "CHANGE_DISCUSSION_CATEGORY_NAME",
    "CHANGE_DISCUSSION_CATEGORY_DESCRIPTION",
    "CHANGE_DISCUSSION_CATEGORY_DISPLAY_ORDER",
    "CHANGE_DISCUSSION_CATEGORY_PARENT",
    "DELETE_DISCUSSION_CATEGORY",
    "ADD_DISCUSSION_TAG_TO_CATEGORY",
    "REMOVE_DISCUSSION_TAG_FROM_CATEGORY",
    "CHANGE_DISCUSSION_THREAD_MESSAGE_REQUIRED_PRIVILEGE_FOR_THREAD_MESSAGE",
    "CHANGE_DISCUSSION_THREAD_MESSAGE_REQUIRED_PRIVILEGE_FOR_THREAD",
    "CHANGE_DISCUSSION_THREAD_MESSAGE_REQUIRED_PRIVILEGE_FOR_TAG",
    "CHANGE_DISCUSSION_THREAD_MESSAGE_REQUIRED_PRIVILEGE_FORUM_WIDE",
    "CHANGE_DISCUSSION_THREAD_REQUIRED_PRIVILEGE_FOR_THREAD",
    "CHANGE_DISCUSSION_THREAD_REQUIRED_PRIVILEGE_FOR_TAG",
    "CHANGE_DISCUSSION_THREAD_REQUIRED_PRIVILEGE_FORUM_WIDE",
    "CHANGE_DISCUSSION_TAG_REQUIRED_PRIVILEGE_FOR_TAG",
    "CHANGE_DISCUSSION_TAG_REQUIRED_PRIVILEGE_FORUM_WIDE",
    "CHANGE_DISCUSSION_CATEGORY_REQUIRED_PRIVILEGE_FOR_CATEGORY",
    "CHANGE_DISCUSSION_CATEGORY_REQUIRED_PRIVILEGE_FORUM_WIDE",
    "CHANGE_FORUM_WIDE_REQUIRED_PRIVILEGE",
    "CHANGE_FORUM_WIDE_DEFAULT_PRIVILEGE_LEVEL",
    "ASSIGN_DISCUSSION_THREAD_MESSAGE_PRIVILEGE",
    "ASSIGN_DISCUSSION_THREAD_PRIVILEGE",
    "ASSIGN_DISCUSSION_TAG_PRIVILEGE",
    "ASSIGN_DISCUSSION_CATEGORY_PRIVILEGE",
    "ASSIGN_FORUM_WIDE_PRIVILEGE",
    "QUOTE_USER_IN_DISCUSSION_THREAD_MESSAGE",
    "CHANGE_DISCUSSION_THREAD_MESSAGE_APPROVAL",
    "INCREMENT_USER_LATEST_VISITED_PAGE",
    "CHANGE_DISCUSSION_THREAD_APPROVAL",
    "SEND_PRIVATE_MESSAGE",
    "DELETE_PRIVATE_MESSAGE",
    "CHANGE_USER_ATTACHMENT_QUOTA",
    "ADD_NEW_ATTACHMENT",
    "CHANGE_ATTACHMENT_NAME",
    "CHANGE_ATTACHMENT_APPROVAL",
    "ADD_ATTACHMENT_TO_DISCUSSION_THREAD_MESSAGE",
    "REMOVE_ATTACHMENT_FROM_DISCUSSION_THREAD_MESSAGE",
    "DELETE_ATTACHMENT",
    "INCREMENT_ATTACHMENT_NUMBER_OF_GETS"]

/-- The fields of the persisted events. -/
def schemas : List (EventKey × List FieldSpec) :=
  [(⟨1, 1⟩, [⟨.uuid, "id"⟩, ⟨.nonEmptyString, "name"⟩]),
    (⟨2, 1⟩, [⟨.uuid, "id"⟩, ⟨.nonEmptyString, "name"⟩]),
    (⟨3, 1⟩, [⟨.uuid, "id"⟩, ⟨.string, "info"⟩]),
    (⟨7, 1⟩, [⟨.uuid, "id"⟩]),
    (⟨8, 1⟩, [⟨.uuid, "id"⟩, ⟨.nonEmptyString, "name"⟩]),
    (⟨9, 1⟩, [⟨.uuid, "id"⟩, ⟨.nonEmptyString, "name"⟩]),
    (⟨11, 1⟩, [⟨.uuid, "id"⟩]),
    (⟨12, 1⟩, [⟨.uuid, "fromId"⟩, ⟨.uuid, "toId"⟩]),
    (⟨13, 1⟩, [⟨.uuid, "threadId"⟩]),
    (⟨14, 1⟩, [⟨.uuid, "threadId"⟩]),
    (⟨15, 1⟩, [⟨.uuid, "id"⟩, ⟨.uuid, "parentId"⟩, ⟨.nonEmptyString, "content"⟩]),
    (⟨16, 1⟩, [⟨.uuid, "id"⟩, ⟨.nonEmptyString, "content"⟩, ⟨.string, "changeReason"⟩]),
    (⟨18, 1⟩, [⟨.uuid, "messageId"⟩, ⟨.uuid, "intoThreadId"⟩]),
    (⟨19, 1⟩, [⟨.uuid, "id"⟩]),
    (⟨20, 1⟩, [⟨.uuid, "id"⟩]),
    (⟨21, 1⟩, [⟨.uuid, "id"⟩]),
    (⟨22, 1⟩, [⟨.uuid, "id"⟩]),
    (⟨23, 1⟩, [⟨.uuid, "id"⟩, ⟨.uuid, "messageId"⟩, ⟨.nonEmptyString, "content"⟩]),
    (⟨24, 1⟩, [⟨.uuid, "id"⟩]),
    (⟨25, 1⟩, [⟨.uuid, "id"⟩, ⟨.nonEmptyString, "name"⟩]),
    (⟨26, 1⟩, [⟨.uuid, "id"⟩, ⟨.nonEmptyString, "name"⟩]),
    (⟨27, 1⟩, [⟨.uuid, "id"⟩, ⟨.string, "blob"⟩]),
    (⟨28, 1⟩, [⟨.uuid, "id"⟩]),
    (⟨29, 1⟩, [⟨.uuid, "tagId"⟩, ⟨.uuid, "threadId"⟩]),
    (⟨30, 1⟩, [⟨.uuid, "tagId"⟩, ⟨.uuid, "threadId"⟩]),
    (⟨31, 1⟩, [⟨.uuid, "fromId"⟩, ⟨.uuid, "toId"⟩]),
    (⟨32, 1⟩, [⟨.uuid, "id"⟩, ⟨.uuid, "parentId"⟩, ⟨.nonEmptyString, "name"⟩]),
    (⟨33, 1⟩, [⟨.uuid, "id"⟩, ⟨.nonEmptyString, "name"⟩]),
    (⟨34, 1⟩, [⟨.uuid, "id"⟩, ⟨.string, "description"⟩]),
    (⟨35, 1⟩, [⟨.uuid, "id"⟩, ⟨.integer .int16, "displayOrder"⟩]),
    (⟨36, 1⟩, [⟨.uuid, "id"⟩, ⟨.uuid, "parentId"⟩]),
    (⟨37, 1⟩, [⟨.uuid, "id"⟩]),
    (⟨38, 1⟩, [⟨.uuid, "tagId"⟩, ⟨.uuid, "categoryId"⟩]),
    (⟨39, 1⟩, [⟨.uuid, "tagId"⟩, ⟨.uuid, "categoryId"⟩])]

/-- The schema table of the forum. -/
def table : Table := ⟨typeNames, schemas, by decide⟩

end EventLog.Schema.Forum
